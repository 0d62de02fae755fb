import Newsdeck.Loop.Detect
import Newsdeck.Loop.MergeGate

/-!
# What a workflow hands the evaluator

The evaluation context, and the issue a pull request declares it closes.
-/

namespace Newsdeck.Loop

open Ecma

structure PullRequest where
  headSha : Text
  isDraft : Bool
  isFork : Bool
  labels : List Text
  body : Option Text

structure EvaluationContext where
  pullRequest : PullRequest
  issueLabels : List Text
  checks : List CheckState
  requiredChecks : List Text
  humanApprovals : ℕ
  stickyComment : Option Text

/-- `z.string()`. -/
def anyText : Schema Text := Schema.text fun _ => true

def checkConclusionSchema : Schema CheckConclusion :=
  Schema.enum [(lit "success", .success), (lit "failure", .failure), (lit "pending", .pending),
    (lit "skipped", .skipped), (lit "neutral", .neutral), (lit "cancelled", .cancelled),
    (lit "timed_out", .timedOut), (lit "missing", .missing)]

def checkStateSchema : Schema CheckState := Schema.object fun field => do
  let name ← field "name" anyText
  let conclusion ← field "conclusion" checkConclusionSchema
  some ⟨name, conclusion⟩

def pullRequestSchema : Schema PullRequest := Schema.object fun field => do
  let _ ← field "number" (Schema.nat 1 Schema.maxSafe)
  let headSha ← field "headSha" (nonEmptyUpTo 64)
  let isDraft ← field "isDraft" Schema.bool
  let isFork ← field "isFork" Schema.bool
  let labels ← field "labels" (Schema.maxItems 100 (Schema.array anyText))
  let body ← field "body" (Schema.nullable anyText)
  some ⟨headSha, isDraft, isFork, labels, body⟩

/-- `EvaluationContextSchema`. -/
def evaluationContextSchema : Schema EvaluationContext := Schema.object fun field => do
  let pullRequest ← field "pullRequest" pullRequestSchema
  let issueLabels ← field "issueLabels"
    (Schema.default (Schema.maxItems 100 (Schema.array anyText)) [])
  let checks ← field "checks" (Schema.maxItems 200 (Schema.array checkStateSchema))
  let requiredChecks ← field "requiredChecks" (Schema.minItems 1 (Schema.array anyText))
  let humanApprovals ← field "humanApprovals" (Schema.nat 0 Schema.maxSafe)
  let stickyComment ← field "stickyComment" (Schema.default (Schema.nullable anyText) none)
  some ⟨pullRequest, issueLabels, checks, requiredChecks, humanApprovals, stickyComment⟩

/-- `CLOSES_ISSUE`. -/
def closesIssue : Regex ℕ :=
  .ignoreCase (.cat [.wordBoundary, .oneOf [.str "closes", .str "fixes", .str "resolves"], spaces,
    .str "#", .group 1 (.many1 .digit), .wordBoundary])

/-- The issue a pull request body declares it closes, if any. -/
def closingIssue (body : Option Text) : Option ℕ∞ :=
  (body.bind (closesIssue.capture 1)).map Json.numberOfDigits

/-- The digits are taken as they stand, so a body can declare issue 0. -/
example : closingIssue (some (lit "Adds search. Fixes #0")) = some 0 := by decide +kernel

theorem evaluationContextSchema_headSha {v : Option Json} {context : EvaluationContext}
    (h : evaluationContextSchema v = some context) : context.pullRequest.headSha.length ≤ 64 := by
  obtain ⟨members, -, hbuild⟩ := Schema.object_eq_some h
  simp only [Option.bind_eq_bind, Option.bind_eq_some_iff, Option.some.injEq] at hbuild
  obtain ⟨pullRequest, hpull, _, -, _, -, _, -, _, -, _, -, rfl⟩ := hbuild
  obtain ⟨members', -, hbuild'⟩ := Schema.object_eq_some hpull
  simp only [Option.bind_eq_bind, Option.bind_eq_some_iff, Option.some.injEq] at hbuild'
  obtain ⟨_, -, headSha, hsha, _, -, _, -, _, -, _, -, rfl⟩ := hbuild'
  have hlength := Schema.text_eq_some hsha
  simp only [Bool.decide_and, Bool.and_eq_true, decide_eq_true_eq] at hlength
  exact hlength.2

end Newsdeck.Loop

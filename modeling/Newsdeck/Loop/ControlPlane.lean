import Newsdeck.Loop.Checks

/-!
# The control plane

Which changes reach the rules the loop uses to govern itself, and in which ways a proposed policy is
weaker than the one in force.

`assessControlPlane` compiles the policy's signals before it looks at a file, so one invalid pattern
makes it throw on every diff; `none` is that exception.
-/

namespace Newsdeck.Loop

open Ecma

structure ControlPlaneAssessment where
  affected : Bool
  policyBearing : Bool
  files : List Text
  reasons : List Text
  deriving DecidableEq, Repr

/-- `policySignals.map((pattern) => new RegExp(pattern, 'i'))`. -/
def compileSignals [Host] (patterns : List Text) : Option (List CompiledRegExp) :=
  patterns.mapM Host.newRegExp

/-- The first policy signal any changed line matches. -/
def changedLinesCarryPolicy (file : DiffFile) (signals : List CompiledRegExp) : Option Text :=
  (file.addedLines ++ file.removedLines).findSome? fun line =>
    (signals.find? fun signal => signal.test line).map CompiledRegExp.source

/-- One round of the loop over the files. -/
def assessFile (policy : LoopPolicy) (signals : List CompiledRegExp)
    (acc : ControlPlaneAssessment) (file : DiffFile) : ControlPlaneAssessment :=
  let structural := matchesAnyGlob policy.controlPlane.patterns file.path
  let always := matchesAnyGlob policy.controlPlane.alwaysPolicy file.path
  let bySignal := changedLinesCarryPolicy file signals
  if !structural && !always && bySignal = none then acc
  else
    let files := acc.files ++ [file.path]
    if always then
      { acc with
        files := files
        policyBearing := true
        reasons := acc.reasons ++ [lit "`" ++ file.path ++ lit "` is policy by definition"] }
    else
      match bySignal with
      | some signal =>
          { acc with
            files := files
            policyBearing := true
            reasons := acc.reasons ++
              [lit "`" ++ file.path ++ lit "` changes a line matching `" ++ signal ++ lit "`"] }
      | none =>
          { acc with
            files := files
            reasons := acc.reasons ++
              [lit "`" ++ file.path ++ lit "` is part of the loop's own machinery"] }

/-- Decide whether a diff reaches the control plane, and whether it is policy. -/
def assessControlPlane [Host] (diff : PullRequestDiff) (policy : LoopPolicy) :
    Option ControlPlaneAssessment :=
  (compileSignals policy.controlPlane.policySignals).map fun signals =>
    let acc := diff.files.foldl (assessFile policy signals) ⟨false, false, [], []⟩
    { acc with affected := acc.files.length > 0 }

/-- Some changed line matches a policy signal. -/
def CarriesPolicy (signals : List CompiledRegExp) (file : DiffFile) : Prop :=
  ∃ line ∈ file.addedLines ++ file.removedLines, ∃ signal ∈ signals, signal.test line = true

/-- The file is control plane. -/
def InControlPlane (policy : LoopPolicy) (signals : List CompiledRegExp) (file : DiffFile) : Prop :=
  matchesAnyGlob policy.controlPlane.patterns file.path = true ∨
    matchesAnyGlob policy.controlPlane.alwaysPolicy file.path = true ∨ CarriesPolicy signals file

theorem changedLinesCarryPolicy_ne_none_iff {file : DiffFile} {signals : List CompiledRegExp} :
    changedLinesCarryPolicy file signals ≠ none ↔ CarriesPolicy signals file := by
  unfold changedLinesCarryPolicy CarriesPolicy
  rw [ne_eq, List.findSome?_eq_none_iff]
  push Not
  simp only [ne_eq, Option.map_eq_none_iff, List.find?_eq_none, not_forall, not_not, exists_prop]

theorem assessFile_files_ne_nil_iff {policy : LoopPolicy} {signals : List CompiledRegExp}
    {acc : ControlPlaneAssessment} {file : DiffFile} :
    (assessFile policy signals acc file).files ≠ [] ↔
      acc.files ≠ [] ∨ InControlPlane policy signals file := by
  unfold InControlPlane
  rw [← changedLinesCarryPolicy_ne_none_iff]
  unfold assessFile
  cases matchesAnyGlob policy.controlPlane.patterns file.path <;>
    cases matchesAnyGlob policy.controlPlane.alwaysPolicy file.path <;>
    cases changedLinesCarryPolicy file signals <;> simp

theorem foldl_assessFile_files_ne_nil_iff {policy : LoopPolicy} {signals : List CompiledRegExp}
    (files : List DiffFile) : ∀ acc : ControlPlaneAssessment,
      (files.foldl (assessFile policy signals) acc).files ≠ [] ↔
        acc.files ≠ [] ∨ ∃ file ∈ files, InControlPlane policy signals file := by
  induction files with
  | nil => simp
  | cons file files ih =>
    intro acc
    rw [List.foldl_cons, ih, assessFile_files_ne_nil_iff]
    simp only [List.mem_cons, exists_eq_or_imp, or_assoc]

/-- A change is control plane as soon as one of its files is. -/
theorem assessControlPlane_spec [Host] {policy : LoopPolicy} {signals : List CompiledRegExp}
    (hsignals : compileSignals policy.controlPlane.policySignals = some signals)
    (diff : PullRequestDiff) :
    ∃ assessment, assessControlPlane diff policy = some assessment ∧
      (assessment.affected = true ↔ ∃ file ∈ diff.files, InControlPlane policy signals file) := by
  refine ⟨_, by rw [assessControlPlane, hsignals]; rfl, ?_⟩
  have hfold := @foldl_assessFile_files_ne_nil_iff policy signals diff.files ⟨false, false, [], []⟩
  simp only [ne_eq, not_true_eq_false, false_or] at hfold
  rw [← hfold, decide_eq_true_eq, gt_iff_lt, List.length_pos_iff]

/-! ### Unsafe workflow changes -/

structure UnsafePattern where
  pattern : Regex ℕ
  detail : Text

/-- `UNSAFE_WORKFLOW_PATTERNS`. -/
def unsafeWorkflowPatterns : List UnsafePattern :=
  [⟨.cat [.bol, .many .space, .str "pull_request_target", .many .space, .str ":"],
      lit "`pull_request_target` runs with repository secrets against untrusted pull request code."⟩,
    ⟨.cat [.bol, .many .space, .str "permissions", .many .space, .str ":", .many .space,
        .str "write-all", .many .space, .eol],
      lit "`permissions: write-all` grants every scope rather than the ones needed."⟩,
    ⟨.alt (.str "ACTIONS_STEP_DEBUG") (.str "ACTIONS_RUNNER_DEBUG"),
      lit "Debug logging can print secret values into a public log."⟩,
    ⟨.cat [.wordBoundary, .str "curl", .wordBoundary, .many (.notChars "|\n"), .str "|",
        .many .space, .opt (.str "ba"), .str "sh", .wordBoundary],
      lit "Piping a downloaded script straight into a shell executes unreviewed code."⟩,
    ⟨.cat [.str "$", .units [123, 123], .many .space, .str "github.event.",
        .oneOf [.str "issue", .str "pull_request", .str "comment", .str "review"], .str ".",
        .many (.cls fun c => isLower c || c = 95 || c = 46), .alt (.str "body") (.str "title")],
      lit "Interpolating issue or pull request text into a run step is command injection: the text is written by whoever can comment."⟩]

/-- Unsafe constructs introduced into a workflow by this diff. -/
def findUnsafeWorkflowChanges (diff : PullRequestDiff) : List Finding :=
  diff.files.flatMap fun file =>
    if !matchesAnyGlob [lit ".github/workflows/**"] file.path then []
    else unsafeWorkflowPatterns.filterMap fun p =>
      if !file.addedLines.any p.pattern.test then none
      else some
        { severity := .critical
          file := some file.path
          line := none
          description := lit "This workflow change introduces an unsafe construct. " ++ p.detail
          suggestedAction := lit "Remove it. If the workflow genuinely needs this, it belongs in its own issue with a stated threat model."
          source := lit "control-plane"
          category := lit "security" }

/-! ### Weakened protections -/

structure ProtectionInput where
  base : LoopPolicy
  head : LoopPolicy
  diff : PullRequestDiff

/-- A finding about the policy file. -/
def policyFinding (severity : Severity) (description suggestedAction : Text) : Finding where
  severity := severity
  file := some (lit ".github/loop-policy.json")
  line := none
  description := description
  suggestedAction := suggestedAction
  source := lit "control-plane"
  category := lit "policy"

/-- Required checks the head no longer lists. -/
def lostChecks (base head : LoopPolicy) : List Finding :=
  (base.requiredChecks.filter fun check => check ∉ head.requiredChecks).map fun check =>
    policyFinding .critical (lit "Required check `" ++ check ++ lit "` was removed from the policy.")
      (lit "Restore it, or raise a dedicated issue to retire the check with a stated reason.")

/-- The names of the steps a tier lost. -/
def lostSteps (before after : Tier) : List Text :=
  (before.steps.map TierStep.name).filter fun name => !after.steps.any fun step => step.name = name

/-- What one tier lost: reviewers, steps. -/
def weakenedTier (base head : LoopPolicy) (level : RiskLevel) : List Finding :=
  let before := base.tiers.tier level
  let after := head.tiers.tier level
  (if after.reviewers < before.reviewers then
    [policyFinding .critical (lit "The `" ++ riskText level ++
        lit "` tier's independent review count dropped from " ++ decimal before.reviewers ++
        lit " to " ++ decimal after.reviewers ++ lit ".")
      (lit "Restore the review count. Fewer independent reviewers is strictly less verification.")]
    else []) ++
  (if (lostSteps before after).length > 0 then
    [policyFinding .critical (lit "The `" ++ riskText level ++
        lit "` tier lost verification step(s): " ++ join (lit ", ") (lostSteps before after) ++
        lit ".")
      (lit "Restore the steps, or state in the issue why the check no longer applies.")]
    else [])

/-- A higher blocking severity. -/
def raisedSeverity (base head : LoopPolicy) : List Finding :=
  if head.blockingSeverity ≠ base.blockingSeverity ∧
      isAtLeastSeverity head.blockingSeverity base.blockingSeverity then
    [policyFinding .critical (lit "Blocking severity was raised from `" ++
        severityText base.blockingSeverity ++ lit "` to `" ++ severityText head.blockingSeverity ++
        lit "`, so fewer findings now stop a merge.")
      (lit "Keep the base severity unless an issue explicitly asks for the change.")]
  else []

/-- Patterns of the path rules the head no longer has under any level. -/
def lostPatterns (base head : LoopPolicy) : List Finding :=
  base.risk.paths.flatMap fun rule => rule.patterns.filterMap fun pattern =>
    let stillThere := head.risk.paths.any fun candidate =>
      candidate.risk = rule.risk && pattern ∈ candidate.patterns
    let downgraded := head.risk.paths.any fun candidate =>
      pattern ∈ candidate.patterns && candidate.risk ≠ rule.risk
    if !stillThere && !downgraded then
      some (policyFinding .critical (lit "Risk rule `" ++ riskText rule.risk ++ lit "` for `" ++
          pattern ++ lit "` was removed, so those files now fall to a lower tier.")
        (lit "Restore the rule, or move the pattern deliberately and say so in the issue."))
    else none

/-- A retry limit that more than doubled. -/
def raisedRetry (category : Text) (before after : ℕ) : List Finding :=
  if after > before * 2 then
    [policyFinding .medium (category ++ lit " more than doubled, from " ++ decimal before ++
        lit " to " ++ decimal after ++ lit ".")
      (lit "Confirm the issue asked for this; it multiplies model usage per issue.")]
  else []

/-- Find every way a proposed policy is weaker than the one in force. -/
def findWeakenedProtections (input : ProtectionInput) : List Finding :=
  lostChecks input.base input.head ++
  [RiskLevel.low, .medium, .high].flatMap (weakenedTier input.base input.head) ++
  raisedSeverity input.base input.head ++
  lostPatterns input.base input.head ++
  raisedRetry (lit "coding fix rounds") input.base.retry.codingFixRounds
    input.head.retry.codingFixRounds ++
  raisedRetry (lit "review fix rounds") input.base.retry.reviewFixRounds
    input.head.retry.reviewFixRounds ++
  raisedRetry (lit "CI fix rounds") input.base.retry.ciFixRounds input.head.retry.ciFixRounds ++
  findUnsafeWorkflowChanges input.diff

/-- Risk under the stricter of two policies. -/
def stricterRisk (base proposed : RiskLevel) : RiskLevel :=
  if riskOrder base ≥ riskOrder proposed then base else proposed

end Newsdeck.Loop

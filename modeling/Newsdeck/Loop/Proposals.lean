import Newsdeck.Loop.EvaluatePr

/-!
# A proposed policy and the verdict

Two ways in which a pull request that proposes another policy meets the gate.

* `retry_note_decision_iff` — a proposal that touches the retry limits alone.  The note about a
  limit that more than doubled is meant to be read, not to block; but the gate stops at any
  non-empty list of weakened protections.
* `evaluate_follows_classify_iff` — a proposal that does not parse.  The step that classifies the
  risk ahead of the reviews ignores it, the evaluator throws on it.
-/

namespace Newsdeck.Loop

open Ecma

/-! ### The report -/

/-- One of the three limits the report compares more than doubles. -/
def MoreThanDoubled (before after : Retry) : Prop :=
  before.codingFixRounds * 2 < after.codingFixRounds ∨
    before.reviewFixRounds * 2 < after.reviewFixRounds ∨ before.ciFixRounds * 2 < after.ciFixRounds

/-- What the comparison finds in a proposal that touches the retry limits alone. -/
theorem findWeakenedProtections_retry_nil_iff {base : LoopPolicy} {retry : Retry}
    {diff : PullRequestDiff} :
    findWeakenedProtections ⟨base, { base with retry := retry }, diff⟩ = [] ↔
      ¬(MoreThanDoubled base.retry retry ∨ UnsafeWorkflow diff) := by
  rw [findWeakenedProtections_nil_iff, findUnsafeWorkflowChanges_nil_iff, not_or]
  refine and_congr_left fun _ => ?_
  unfold MoreThanDoubled
  push Not
  constructor
  · intro h
    exact ⟨h.codingFixRounds, h.reviewFixRounds, h.ciFixRounds⟩
  · rintro ⟨hcoding, hreview, hci⟩
    exact
      { checks := fun check hcheck => hcheck
        reviewers := fun level => le_rfl
        steps := fun level step hstep => ⟨step, hstep, rfl⟩
        severity := by simp [isAtLeastSeverity]
        patterns := fun rule hrule pattern hpattern => ⟨rule, hrule, hpattern⟩
        codingFixRounds := hcoding
        reviewFixRounds := hreview
        ciFixRounds := hci }

/-! ### The gate -/

/-- The gate input with a report about the proposal. -/
def GateInput.withReport (input : GateInput) (report : List Finding) : GateInput :=
  { input with weakenedProtections := some report }

/-- No return of the gate stands before the one for weakened protections, and nobody approved. -/
structure DecidedByReport (input : GateInput) : Prop where
  ready : input.isDraft = false
  noHold : input.humanHold ≠ some true
  notFork : input.isFork = false
  unapproved : input.humanApprovals = 0

section Gate

variable [Host]

/-- **When a person is asked.**  The pull request is no draft, and it is held, comes from a fork, or
weakens a protection that nobody approved to weaken. -/
theorem decideMerge_human_iff (input : GateInput) :
    (decideMerge input).decision = .humanApprovalRequired ↔
      input.isDraft = false ∧ (input.humanHold = some true ∨ input.isFork = true ∨
        (input.weakened ≠ [] ∧ input.humanApprovals = 0)) := by
  rw [decideMerge_decision, gateExit]
  cases hfirm : firmStop input with
  | none =>
    obtain ⟨-, hhold, hfork, hprotections, -⟩ := (firmStop_none_iff input).mp hfirm
    have hsoft : ∀ exit, softStop input = some exit → exit.decision ≠ .humanApprovalRequired := by
      intro exit hexit
      unfold softStop at hexit
      dsimp only at hexit
      split_ifs at hexit <;> simp only [Option.some.injEq] at hexit <;> subst hexit <;> decide
    have hnone : ¬(input.isDraft = false ∧ (input.humanHold = some true ∨ input.isFork = true ∨
        (input.weakened ≠ [] ∧ input.humanApprovals = 0))) := by
      rintro ⟨-, hheld | hforked | ⟨hweakened, hunapproved⟩⟩
      · exact hhold hheld
      · rw [hforked] at hfork
        exact absurd hfork (by decide)
      · rcases hprotections with hempty | happroved
        · exact hweakened hempty
        · omega
    refine iff_of_false ?_ hnone
    cases hexit : softStop input with
    | none => exact fun h => GateDecision.noConfusion h
    | some exit => exact hsoft exit hexit
  | some exit =>
    -- the returns before the reviews come first, and the ones after them ask nobody
    unfold firmStop at hfirm
    simp only [gt_iff_lt, List.length_pos_iff] at hfirm
    split_ifs at hfirm <;> simp only [Option.some.injEq] at hfirm <;> subst hfirm <;>
      simp_all [GateExit.decision]

/-- Where an earlier return is taken or a person approved, the report does not show. -/
theorem decideMerge_withReport_congr {input : GateInput} (h : ¬DecidedByReport input)
    (report : List Finding) :
    (decideMerge (input.withReport report)).decision =
      (decideMerge (input.withReport [])).decision := by
  have hfirm : firmStop (input.withReport report) = firmStop (input.withReport []) := by
    unfold firmStop
    dsimp only [GateInput.withReport]
    by_cases hdraft : input.isDraft = true
    · simp only [hdraft, if_true]
    by_cases hhold : input.humanHold = some true
    · simp only [hhold, if_true]
    by_cases hfork : input.isFork = true
    · simp only [hfork, if_true]
    have happroved : input.humanApprovals ≠ 0 := fun hunapproved =>
      h ⟨Bool.eq_false_of_not_eq_true hdraft, hhold, Bool.eq_false_of_not_eq_true hfork,
        hunapproved⟩
    simp only [happroved, and_false, if_false]
    rfl
  have hsoft : softStop (input.withReport report) = softStop (input.withReport []) := rfl
  rw [decideMerge_decision, decideMerge_decision, gateExit, gateExit, hfirm, hsoft]

/-- **When the note does not block.**  Whatever the retry limits of the proposal, the diff and the
gate input: the report changes the decision exactly where a limit more than doubled, or a workflow
change is unsafe, and nothing before the report has decided. -/
theorem retry_note_decision_iff (base : LoopPolicy) (retry : Retry) (diff : PullRequestDiff)
    (input : GateInput) :
    (decideMerge (input.withReport
        (findWeakenedProtections ⟨base, { base with retry := retry }, diff⟩))).decision =
      (decideMerge (input.withReport [])).decision ↔
      ¬((MoreThanDoubled base.retry retry ∨ UnsafeWorkflow diff) ∧ DecidedByReport input) := by
  by_cases hdecided : DecidedByReport input
  · have hclean : (decideMerge (input.withReport [])).decision ≠ .humanApprovalRequired := by
      rw [ne_eq, decideMerge_human_iff]
      rintro ⟨-, hheld | hforked | ⟨hweakened, -⟩⟩
      · exact hdecided.noHold hheld
      · exact absurd (hforked.symm.trans hdecided.notFork) (by decide)
      · exact hweakened rfl
    rw [and_iff_left hdecided, ← findWeakenedProtections_retry_nil_iff]
    constructor
    · intro hsame
      by_contra hreport
      refine hclean (hsame.symm.trans ((decideMerge_human_iff _).mpr ⟨hdecided.ready, ?_⟩))
      exact .inr (.inr ⟨hreport, hdecided.unapproved⟩)
    · intro hreport
      rw [hreport]
  · exact iff_of_true (decideMerge_withReport_congr hdecided _) fun h => hdecided h.2

end Gate

/-- The retry limits of the sample policy, with the CI fix rounds raised from three to seven. -/
def raisedLimits : Retry := ⟨3, 3, 3, 7, 2, 2⟩

/-- The note alone turns a merge into a stop. -/
theorem retry_note_blocks :
    (@decideMerge asciiHost ((approvedInput [⟨lit "Tests", .success⟩] [lit "Tests"]).withReport
      (findWeakenedProtections ⟨samplePolicy .low none,
        { samplePolicy .low none with retry := raisedLimits }, ⟨[]⟩⟩))).decision =
      .humanApprovalRequired ∧
    (@decideMerge asciiHost ((approvedInput [⟨lit "Tests", .success⟩] [lit "Tests"]).withReport
      [])).decision = .autoMerge := by
  decide +kernel

/-! ### Two readers of one set of files -/

/-- The texts of the files the two programs read, besides what `Round` holds; `none` where no file
is at the configured path. -/
structure RoundFiles where
  policy : Text
  context : Text
  diff : Text
  reviewOutputs : List (Option Text)
  proposedPolicy : Option Text
  now : Text

/-- The proposed policy as the classifier reads it: one that does not parse is ignored. -/
def tryParse (content : Text) : Option LoopPolicy := (Json.parse content).bind parsePolicy

/-- The proposed policy as the evaluator reads it; `none` when it throws. -/
def readProposed (content : Option Text) : Option (Option Json) :=
  match content with
  | none => some none
  | some content => (Json.parse content).map some

/-- What the evaluator makes of the texts; `none` when one is not JSON. -/
def RoundFiles.round (files : RoundFiles) : Option Round := do
  let policy ← Json.parse files.policy
  let context ← Json.parse files.context
  let proposed ← readProposed files.proposedPolicy
  some ⟨policy, context, files.diff, files.reviewOutputs, proposed, files.now⟩

section Programs

variable [Host]

/-- `bin/classify-risk.ts`: the risk and the number of reviewers, `none` when it throws. -/
def classifyRiskScript (files : RoundFiles) : Option (RiskAssessment × ℕ) := do
  let policy ← (Json.parse files.policy).bind parsePolicy
  let proposed := files.proposedPolicy.bind tryParse
  let context ← (Json.parse files.context).bind fun raw => evaluationContextSchema (some raw)
  let diff := parseUnifiedDiff files.diff
  let labels := context.pullRequest.labels ++ context.issueLabels
  let assessment ← classifyRiskMonotonic ⟨diff, labels, policy, proposed⟩
  some (assessment, reviewersForRisk policy assessment.risk)

variable [Complaints]

/-- `bin/evaluate-pr.ts`: the risk it decides with and the outcome, `none` when it throws. -/
def evaluatePrScript (files : RoundFiles) : Option (RiskAssessment × GateOutcome) := do
  let round ← files.round
  let facts ← round.facts
  some (facts.risk, facts.outcome (parseLoopState facts.context.stickyComment facts.issue))

omit [Host] [Complaints] in
/-- What the evaluator takes for the proposal: nothing where there is none, and otherwise what the
classifier takes, unless that is nothing. -/
theorem readProposed_bind (content : Option Text) :
    (readProposed content).bind readProposedPolicy =
      match content with
      | none => some none
      | some text => (tryParse text).map some := by
  cases content with
  | none => rfl
  | some text =>
    simp only [readProposed, tryParse]
    cases Json.parse text with
    | none => rfl
    | some raw => rfl

omit [Complaints] in
/-- What the two programs share when the classifier succeeds. -/
theorem classifyRiskScript_eq_some {files : RoundFiles} {assessment : RiskAssessment}
    {reviewers : ℕ} (h : classifyRiskScript files = some (assessment, reviewers)) :
    ∃ rawPolicy policy rawContext context, Json.parse files.policy = some rawPolicy ∧
      parsePolicy rawPolicy = some policy ∧ Json.parse files.context = some rawContext ∧
      evaluationContextSchema (some rawContext) = some context ∧
      classifyRiskMonotonic ⟨parseUnifiedDiff files.diff,
        context.pullRequest.labels ++ context.issueLabels, policy,
        files.proposedPolicy.bind tryParse⟩ = some assessment := by
  simp only [classifyRiskScript, Option.bind_eq_bind, Option.bind_eq_some_iff, Option.some.injEq,
    Prod.mk.injEq] at h
  obtain ⟨policy, ⟨rawPolicy, hrawPolicy, hpolicy⟩, context, ⟨rawContext, hrawContext, hcontext⟩,
    _, hrisk, rfl, -⟩ := h
  exact ⟨rawPolicy, policy, rawContext, context, hrawPolicy, hpolicy, hrawContext, hcontext, hrisk⟩

/-- A decision needs a proposal that can be read. -/
theorem evaluatePrScript_reads {files : RoundFiles} {result : RiskAssessment × GateOutcome}
    (h : evaluatePrScript files = some result) :
    ∃ proposed, (readProposed files.proposedPolicy).bind readProposedPolicy = some proposed := by
  simp only [evaluatePrScript, RoundFiles.round, Option.bind_eq_bind, Option.bind_eq_some_iff] at h
  obtain ⟨round, ⟨rawPolicy, -, rawContext, -, raw, hraw, hround⟩, facts, hfacts, -⟩ := h
  obtain rfl := Option.some.inj hround
  simp only [Round.facts, Option.bind_eq_bind, Option.bind_eq_some_iff] at hfacts
  obtain ⟨policy, -, context, -, proposed, hproposed, -⟩ := hfacts
  exact ⟨proposed, by rw [hraw, Option.bind_some, hproposed]⟩

/-- With a proposal read as the classifier reads it, the risk is the same. -/
theorem evaluatePrScript_of_reads {files : RoundFiles} {assessment : RiskAssessment}
    {reviewers : ℕ} (h : classifyRiskScript files = some (assessment, reviewers))
    (hreads : (readProposed files.proposedPolicy).bind readProposedPolicy =
      some (files.proposedPolicy.bind tryParse)) :
    ∃ outcome, evaluatePrScript files = some (assessment, outcome) := by
  obtain ⟨rawPolicy, policy, rawContext, context, hrawPolicy, hpolicy, hrawContext, hcontext,
    hrisk⟩ := classifyRiskScript_eq_some h
  obtain ⟨raw, hraw, hproposed⟩ := Option.bind_eq_some_iff.mp hreads
  simp only [evaluatePrScript, RoundFiles.round, Round.facts, hrawPolicy, hrawContext, hraw,
    hpolicy, hcontext, hproposed, hrisk, Option.bind_eq_bind, Option.bind_some]
  exact ⟨_, rfl⟩

/-- **When the evaluator follows the classifier.**  Given files on which the classifier succeeds,
the evaluator reaches a decision with the same risk exactly when there is no proposed policy or it
parses. -/
theorem evaluate_follows_classify_iff (files : RoundFiles) (assessment : RiskAssessment)
    (reviewers : ℕ) (h : classifyRiskScript files = some (assessment, reviewers)) :
    (∃ outcome, evaluatePrScript files = some (assessment, outcome)) ↔
      ∀ content, files.proposedPolicy = some content →
        ∃ proposed, tryParse content = some proposed := by
  constructor
  · rintro ⟨outcome, houtcome⟩ content hcontent
    obtain ⟨proposed, hreads⟩ := evaluatePrScript_reads houtcome
    rw [hcontent, readProposed_bind] at hreads
    obtain ⟨policy, hpolicy, -⟩ := Option.map_eq_some_iff.mp hreads
    exact ⟨policy, hpolicy⟩
  · intro hparses
    refine evaluatePrScript_of_reads h ?_
    rw [readProposed_bind]
    cases hcontent : files.proposedPolicy with
    | none => rfl
    | some content =>
      obtain ⟨proposed, hproposed⟩ := hparses content hcontent
      simp only [hproposed, Option.map_some, Option.bind_some]

end Programs

/-! ### Files the two programs read -/

/-- The files of a round about an empty diff. -/
def proposalFiles (proposedPolicy : Option Text) : RoundFiles where
  policy := @Json.stringify asciiHost 0 (sampleDocument "low" [])
  context := @Json.stringify asciiHost 0 (sampleContext .null)
  diff := []
  reviewOutputs := []
  proposedPolicy := proposedPolicy
  now := lit "2026-08-30T15:00:00.000Z"

/-- A proposal that raises the default risk, as text. -/
def raisedProposal : Text := @Json.stringify asciiHost 0 (sampleDocument "medium" [])

theorem classify_proposalFiles :
    (@classifyRiskScript asciiHost (proposalFiles (some raisedProposal))).map
      (fun result => result.1.risk) = some .medium ∧
    (@classifyRiskScript asciiHost (proposalFiles (some (lit "\x7b")))).isSome = true ∧
    (@evaluatePrScript asciiHost silentComplaints (proposalFiles (some (lit "\x7b")))).isSome =
      false := by
  decide +kernel

theorem tryParse_raisedProposal :
    tryParse raisedProposal = some (samplePolicy .medium none) := by
  decide +kernel

/-- Under a proposal that raises the risk both go through, with the risk raised. -/
theorem evaluate_follows_classify_raised :
    ∃ assessment reviewers outcome, assessment.risk = .medium ∧
      @classifyRiskScript asciiHost (proposalFiles (some raisedProposal)) =
        some (assessment, reviewers) ∧
      @evaluatePrScript asciiHost silentComplaints (proposalFiles (some raisedProposal)) =
        some (assessment, outcome) := by
  obtain ⟨⟨assessment, reviewers⟩, h, hrisk⟩ := Option.map_eq_some_iff.mp classify_proposalFiles.1
  obtain ⟨outcome, houtcome⟩ := (@evaluate_follows_classify_iff asciiHost silentComplaints
    (proposalFiles (some raisedProposal)) assessment reviewers h).mpr fun content hcontent =>
      ⟨_, Option.some.inj hcontent ▸ tryParse_raisedProposal⟩
  exact ⟨assessment, reviewers, outcome, hrisk, h, houtcome⟩

/-- A proposal that is one brace: the classifier finds a risk, the evaluator no decision. -/
theorem malformed_proposal_stops_evaluator :
    (∃ assessment reviewers, @classifyRiskScript asciiHost
      (proposalFiles (some (lit "\x7b"))) = some (assessment, reviewers)) ∧
    @evaluatePrScript asciiHost silentComplaints (proposalFiles (some (lit "\x7b"))) = none := by
  obtain ⟨-, hclassify, hevaluate⟩ := classify_proposalFiles
  obtain ⟨⟨assessment, reviewers⟩, h⟩ := Option.isSome_iff_exists.mp hclassify
  exact ⟨⟨assessment, reviewers, h⟩, Option.not_isSome_iff_eq_none.mp (by rw [hevaluate]; decide)⟩

end Newsdeck.Loop

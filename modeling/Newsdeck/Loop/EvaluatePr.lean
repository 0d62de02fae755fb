import Newsdeck.Library.Runs
import Newsdeck.Loop.Checks
import Newsdeck.Loop.Context
import Newsdeck.Loop.Protections
import Newsdeck.Loop.StateRoundTrip
import Newsdeck.Loop.Summary

/-!
# The evaluator

One round of the loop: read the policy, the context, the diff and the reviews, decide, record the
round and publish the comment.  Between two rounds only the recorded state survives.

* `record_fits_iff` — what a round must meet so that the state it records fits the reader's schema;
* `rounds_round_trip_iff` — all states a run of rounds records come back exactly when every round
  meets this.

Agents' findings pass a schema that bounds them, the findings of the deterministic checks do not,
and neither does the number of the issue: it is read out of the body, whatever its digits say.
-/

namespace Newsdeck.Loop

open Ecma

/-! ### What a round reads -/

/-- The files a round reads.  A review output is `none` when no file is at the configured path. -/
structure Round where
  policy : Json
  context : Json
  diff : Text
  reviewOutputs : List (Option Text)
  proposedPolicy : Option Json
  now : Text

/-- What a round knows before it reads the previous state. -/
structure RoundFacts where
  policy : LoopPolicy
  context : EvaluationContext
  diff : PullRequestDiff
  labels : List Text
  risk : RiskAssessment
  reviews : List ReviewResult
  weakenedProtections : List Finding
  now : Text

/-- The review result to use when no agent produced one. -/
def unavailableReview (reason : Text) : ReviewResult where
  status := .blocked
  summary := lit "No usable review agent result: " ++ reason
  findings :=
    [{ severity := .high
       file := none
       line := none
       description := lit "The review agent produced no result (" ++ reason ++ lit ")."
       suggestedAction := lit "Configure a review agent provider (see docs/loop-engineering.md), or review and merge this pull request by hand."
       source := lit "review-availability"
       category := lit "automation" }]

/-- The weakened protections of a diff, with or without a proposed policy. -/
def weakenedBy (diff : PullRequestDiff) (policy : LoopPolicy) (proposed : Option LoopPolicy) :
    List Finding :=
  match proposed with
  | none => findUnsafeWorkflowChanges diff
  | some head => findWeakenedProtections ⟨policy, head, diff⟩ ++ findUnsafeWorkflowChanges diff

section Reading

variable [Complaints]

def agentReview : Option Text → ReviewResult
  | some text => (parseReviewText text).result
  | none => unavailableReview (lit "the review agent wrote no output")

def agentReviews (outputs : List (Option Text)) : List ReviewResult :=
  if outputs.length = 0 then [unavailableReview (lit "no review agent is configured")]
  else outputs.map agentReview

variable [Host]

/-- The reviews: the deterministic findings ride on the first one. -/
def roundReviews (outputs : List (Option Text)) (diff : PullRequestDiff)
    (blockingSeverity : Severity) : List ReviewResult :=
  (agentReviews outputs).mapIdx fun index review =>
    if index = 0 then mergeReview review (runDeterministicChecks diff) blockingSeverity else review

/-- The proposed policy, when there is one; `none` when it is not valid. -/
def readProposedPolicy (raw : Option Json) : Option (Option LoopPolicy) :=
  match raw with
  | none => some none
  | some value => (parsePolicy value).map some

/-- Validate and classify; `none` when the script throws. -/
def Round.facts (round : Round) : Option RoundFacts := do
  let policy ← parsePolicy round.policy
  let context ← evaluationContextSchema (some round.context)
  let diff := parseUnifiedDiff round.diff
  let labels := context.pullRequest.labels ++ context.issueLabels
  let proposed ← readProposedPolicy round.proposedPolicy
  let risk ← classifyRiskMonotonic ⟨diff, labels, policy, proposed⟩
  some
    { policy := policy
      context := context
      diff := diff
      labels := labels
      risk := risk
      reviews := roundReviews round.reviewOutputs diff policy.blockingSeverity
      weakenedProtections := weakenedBy diff policy proposed
      now := round.now }

end Reading

/-! ### What a round does -/

namespace RoundFacts

def issue (facts : RoundFacts) : Option ℕ∞ := closingIssue facts.context.pullRequest.body

/-- What the gate is asked. -/
def gateInput (facts : RoundFacts) (previous : LoopState) : GateInput where
  risk := facts.risk.risk
  reviews := facts.reviews
  requiredReviewers := reviewersForRisk facts.policy facts.risk.risk
  checks := facts.context.checks
  requiredChecks := facts.context.requiredChecks
  reviewAttempts := previous.reviewAttempts
  maxReviewAttempts := facts.policy.retry.maxReviewAttempts
  humanApprovals := facts.context.humanApprovals
  isFork := facts.context.pullRequest.isFork
  isDraft := facts.context.pullRequest.isDraft
  blockingSeverity := facts.policy.blockingSeverity
  weakenedProtections := some facts.weakenedProtections
  humanHold := some (humanHoldLabel ∈ facts.labels)
  tierVerification := none

variable [Host]

def outcome (facts : RoundFacts) (previous : LoopState) : GateOutcome :=
  decideMerge (facts.gateInput previous)

/-- Only a round that asks for changes keeps findings. -/
def retainedFindings (facts : RoundFacts) (previous : LoopState) : List FindingRecord :=
  if (facts.outcome previous).decision = .changesRequested then
    (blockingFindings (facts.outcome previous).review.findings facts.policy.blockingSeverity).map
      toFindingRecord
  else []

/-- What is recorded. -/
def recordInput (facts : RoundFacts) (previous : LoopState) : RecordRoundInput where
  state := { previous with issue := facts.issue }
  headSha := facts.context.pullRequest.headSha
  reviewStatus := (facts.outcome previous).review.status
  decision := (facts.outcome previous).decision
  atTime := facts.now
  findings := facts.retainedFindings previous

/-- The state the round writes. -/
def record (facts : RoundFacts) (previous : LoopState) : LoopState :=
  recordRound (facts.recordInput previous)

/-- What the comment shows. -/
def view (facts : RoundFacts) (previous : LoopState) : PullRequestView where
  issue := facts.issue
  risk := facts.risk
  review := (facts.outcome previous).review
  outcome := facts.outcome previous
  state := facts.record previous
  maxReviewAttempts := facts.policy.retry.maxReviewAttempts
  checks := facts.context.requiredChecks.map fun name =>
    ⟨name, ((findCheck facts.context.checks name).map CheckState.conclusion).getD .missing⟩
  recurrence := detectRecurrence (facts.outcome previous).review.findings
    (previous.history.map fun entry => ⟨entry.headSha, entry.attempt, entry.findings⟩)
    facts.context.pullRequest.headSha

end RoundFacts

section Running

variable [Complaints] [Host]

/-- The script: the comment it publishes, `none` when it throws. -/
def evaluatePr (round : Round) : Option Text :=
  round.facts.map fun facts =>
    stickyComment (facts.view (parseLoopState facts.context.stickyComment facts.issue))

/-- One round from the state before to the state after; a round that throws writes nothing. -/
def roundStep (previous : LoopState) (round : Round) : Option GateOutcome × LoopState :=
  match round.facts with
  | none => (none, previous)
  | some facts => (some (facts.outcome previous), facts.record previous)

end Running

/-! ### What findings carry -/

/-- The two bounds of the reader that `toFindingRecord` leaves to the findings. -/
structure Finding.Short (f : Finding) : Prop where
  file : ∀ file, f.file = some file → file.length ≤ 512
  category : f.category.length ≤ 64

theorem toFindingRecord_fits {f : Finding} (h : f.Short) : (toFindingRecord f).Fits where
  file := h.file
  description := List.length_take_le _ _
  category := h.category

theorem findingSchema_short {v : Option Json} {f : Finding} (h : findingSchema v = some f) :
    f.Short := by
  obtain ⟨members, -, hbuild⟩ := Schema.object_eq_some h
  simp only [Option.bind_eq_bind, Option.bind_eq_some_iff, Option.some.injEq] at hbuild
  obtain ⟨_, -, file, hfile, _, -, _, -, _, -, _, -, category, hcategory, rfl⟩ := hbuild
  constructor
  · intro path hpath
    obtain rfl : file = some path := hpath
    exact textUpTo_eq_some (Schema.nullish_eq_some hfile)
  · rcases Schema.default_eq_some hcategory with rfl | hcategory
    · show (lit "review").length ≤ 64
      decide
    · exact textUpTo_eq_some hcategory

theorem reviewResultSchema_short {v : Option Json} {result : ReviewResult}
    (h : reviewResultSchema v = some result) : ∀ f ∈ result.findings, f.Short := by
  obtain ⟨members, -, hbuild⟩ := Schema.object_eq_some h
  simp only [Option.bind_eq_bind, Option.bind_eq_some_iff, Option.some.injEq] at hbuild
  obtain ⟨_, -, findings, hfindings, _, -, rfl⟩ := hbuild
  intro f hf
  obtain ⟨w, hw⟩ := Schema.array_eq_some (Schema.maxItems_eq_some hfindings).1 f hf
  exact findingSchema_short hw

/-- A finding about no file, under a heading of the loop's own. -/
theorem short_automation {f : Finding} (hfile : f.file = none)
    (hcategory : f.category = lit "automation") : f.Short where
  file := fun file h => absurd (hfile.symm.trans h) (by simp)
  category := by rw [hcategory]; decide

theorem blockedResult_short (summary : Text) (errors : List Text) :
    ∀ f ∈ (blockedResult summary errors).findings, f.Short := by
  intro f hf
  obtain ⟨error, -, rfl⟩ := List.mem_map.mp hf
  exact short_automation rfl rfl

theorem unavailableReview_short (reason : Text) :
    ∀ f ∈ (unavailableReview reason).findings, f.Short := by
  intro f hf
  obtain rfl := List.mem_singleton.mp hf
  exact short_automation rfl rfl

theorem sanitiseResult_short {result : ReviewResult} (h : ∀ f ∈ result.findings, f.Short) :
    ∀ f ∈ (sanitiseResult result).findings, f.Short := by
  intro f hf
  obtain ⟨g, hg, rfl⟩ := List.mem_map.mp hf
  exact ⟨(h g hg).file, (h g hg).category⟩

section

variable [Complaints]

theorem parseReviewText_short (text : Text) :
    ∀ f ∈ (parseReviewText text).result.findings, f.Short := by
  unfold parseReviewText parseReviewResult
  dsimp only
  split
  · exact blockedResult_short _ _
  · split
    · exact blockedResult_short _ _
    · rename_i hresult
      exact sanitiseResult_short (reviewResultSchema_short hresult)

/-- **What the agents report is short.** -/
theorem agentReviews_short {outputs : List (Option Text)} {review : ReviewResult}
    (h : review ∈ agentReviews outputs) : ∀ f ∈ review.findings, f.Short := by
  unfold agentReviews at h
  split at h
  · rw [List.mem_singleton.mp h]
    exact unavailableReview_short _
  · obtain ⟨output, -, rfl⟩ := List.mem_map.mp h
    cases output with
    | none => exact unavailableReview_short _
    | some text => exact parseReviewText_short text

variable [Host]

/-- A finding of the reviews is an agent's or one of the checks. -/
theorem roundReviews_findings {outputs : List (Option Text)} {diff : PullRequestDiff}
    {blockingSeverity : Severity} {f : Finding}
    (h : f ∈ (roundReviews outputs diff blockingSeverity).flatMap ReviewResult.findings) :
    f.Short ∨ f ∈ runDeterministicChecks diff := by
  obtain ⟨review, hreview, hf⟩ := List.mem_flatMap.mp h
  obtain ⟨index, hindex, rfl⟩ := List.mem_mapIdx.mp hreview
  have hshort := agentReviews_short (List.getElem_mem hindex)
  split at hf
  · rcases List.mem_append.mp hf with hf | hf
    · exact .inr hf
    · exact .inl (hshort f hf)
  · exact .inl (hshort f hf)

end

theorem runDeterministicChecks_category [Host] {diff : PullRequestDiff} {f : Finding}
    (h : f ∈ runDeterministicChecks diff) : f.category.length ≤ 64 := by
  have hall : ∀ category ∈ checkCategories, category.length ≤ 64 := by decide
  exact hall _ (runDeterministicChecks_from h).category

/-! ### What a round needs to be stored -/

/-- A number the reader accepts for the issue. -/
def IssueFits (issue : Option ℕ∞) : Prop :=
  ∀ n, issue = some n → ∃ k : ℕ, n = k ∧ 1 ≤ k ∧ k ≤ Schema.maxSafe

theorem initialState_fits_iff (issue : Option ℕ∞) : (initialState issue).Fits ↔ IssueFits issue := by
  constructor
  · intro h
    exact h.issue
  · intro h
    exact ⟨h, by simp [initialState], by simp [initialState], by simp [initialState]⟩

section Storing

variable [Host]

/-- What validation leaves of the facts of a round. -/
structure RoundFacts.Validated (facts : RoundFacts) : Prop where
  headSha : facts.context.pullRequest.headSha.length ≤ 64
  limit : facts.policy.retry.maxReviewAttempts ≤ 10
  findings : ∀ f ∈ facts.reviews.flatMap ReviewResult.findings,
    f.Short ∨ f ∈ runDeterministicChecks facts.diff

theorem Round.facts_validated [Complaints] {round : Round} {facts : RoundFacts}
    (h : round.facts = some facts) : facts.Validated := by
  simp only [Round.facts, Option.bind_eq_bind, Option.bind_eq_some_iff, Option.some.injEq] at h
  obtain ⟨policy, hpolicy, context, hcontext, proposed, -, risk, -, rfl⟩ := h
  exact ⟨evaluationContextSchema_headSha hcontext, (parsePolicy_bounded hpolicy).maxReviewAttempts,
    fun f hf => roundReviews_findings hf⟩

/-- The findings a fix round is asked to address. -/
def RoundFacts.blocking (facts : RoundFacts) : List Finding :=
  blockingFindings (dedupe (facts.reviews.flatMap ReviewResult.findings))
    facts.policy.blockingSeverity

/-- What a round must meet so that its state can be read back: the body declares an issue number the
reader accepts or none, and where changes are requested, no finding of the checks among the first
ten blocking ones is about a path of more than 512 units. -/
structure RoundFacts.Storable (facts : RoundFacts) (previous : LoopState) : Prop where
  issue : IssueFits facts.issue
  files : (facts.outcome previous).decision = .changesRequested →
    ∀ f ∈ facts.blocking.take maxRetainedFindings, f ∈ runDeterministicChecks facts.diff →
      ∀ file, f.file = some file → file.length ≤ 512

variable {facts : RoundFacts} {previous : LoopState}

theorem RoundFacts.retainedFindings_eq (facts : RoundFacts) (previous : LoopState) :
    facts.retainedFindings previous =
      if (facts.outcome previous).decision = .changesRequested then
        facts.blocking.map toFindingRecord
      else [] := by
  have hfindings : (facts.outcome previous).review.findings =
      dedupe (facts.reviews.flatMap ReviewResult.findings) := aggregateReviews_findings _
  rw [RoundFacts.retainedFindings, hfindings, RoundFacts.blocking]

theorem mem_entry_findings {r : FindingRecord} : r ∈ (facts.recordInput previous).entry.findings ↔
    (facts.outcome previous).decision = .changesRequested ∧
      ∃ f ∈ facts.blocking.take maxRetainedFindings, toFindingRecord f = r := by
  have hentry : (facts.recordInput previous).entry.findings =
      (facts.retainedFindings previous).take maxRetainedFindings := rfl
  rw [hentry, RoundFacts.retainedFindings_eq]
  split
  · rename_i hchanges
    rw [← List.map_take, List.mem_map]
    exact ⟨fun h => ⟨hchanges, h⟩, fun h => h.2⟩
  · rename_i hchanges
    simp [hchanges]

/-- Of the bounds the reader checks on a finding, only one can fail. -/
theorem blocking_short (hfacts : facts.Validated) {f : Finding} (hf : f ∈ facts.blocking)
    (hfile : f ∈ runDeterministicChecks facts.diff → ∀ file, f.file = some file → file.length ≤ 512) :
    f.Short := by
  have hmem := mem_of_mem_dedupe (mem_blockingFindings.mp hf).1
  rcases hfacts.findings f hmem with hshort | hcheck
  · exact hshort
  · exact ⟨hfile hcheck, runDeterministicChecks_category hcheck⟩

theorem entry_fits (hfacts : facts.Validated) (hstorable : facts.Storable previous)
    (hattempts : previous.reviewAttempts ≤ 10) : (facts.recordInput previous).entry.Fits where
  headSha := hfacts.headSha
  attempt := hattempts.trans (by decide)
  count := List.length_take_le _ _
  findings := by
    intro r hr
    obtain ⟨hchanges, f, hf, rfl⟩ := mem_entry_findings.mp hr
    exact toFindingRecord_fits
      (blocking_short hfacts (List.mem_of_mem_take hf) (hstorable.files hchanges f hf))

theorem record_reviewAttempts (facts : RoundFacts) (previous : LoopState) :
    (facts.record previous).reviewAttempts = previous.reviewAttempts +
      if (facts.outcome previous).decision = .changesRequested then 1 else 0 :=
  recordRound_reviewAttempts (facts.recordInput previous)

/-- The retry counter never passes the highest limit a policy can set. -/
theorem record_reviewAttempts_le (hfacts : facts.Validated)
    (hattempts : previous.reviewAttempts ≤ 10) : (facts.record previous).reviewAttempts ≤ 10 := by
  rw [record_reviewAttempts]
  split
  · rename_i hchanges
    have hlt : previous.reviewAttempts < facts.policy.retry.maxReviewAttempts :=
      decideMerge_changesRequested_lt hchanges
    have := hfacts.limit
    omega
  · omega

/-- **What a round records.**  From a state that fits, it fits again exactly when the round can be
stored. -/
theorem record_fits_iff (hfacts : facts.Validated) (hfits : previous.Fits)
    (hattempts : previous.reviewAttempts ≤ 10) :
    (facts.record previous).Fits ↔ facts.Storable previous := by
  constructor
  · intro h
    refine ⟨h.issue, fun hchanges f hf _ => ?_⟩
    have hentry : (facts.recordInput previous).entry.Fits := by
      apply h.history
      rw [RoundFacts.record, recordRound_history]
      exact mem_takeLast_concat (by decide) _ _
    exact (hentry.findings _ (mem_entry_findings.mpr ⟨hchanges, f, hf, rfl⟩)).file
  · intro h
    refine ⟨h.issue, (record_reviewAttempts_le hfacts hattempts).trans (by decide), ?_, ?_⟩
    · rw [RoundFacts.record, recordRound_history]
      exact length_takeLast_le 25 _
    · intro e he
      rw [RoundFacts.record, recordRound_history] at he
      rcases List.mem_append.mp (mem_of_mem_takeLast he) with he | he
      · exact hfits.history e he
      · rw [List.mem_singleton.mp he]
        exact entry_fits hfacts h hattempts

end Storing

/-! ### Runs -/

section Runs

variable [Complaints] [Host]

/-- A round that is evaluated can be stored. -/
def RoundStorable (previous : LoopState) (round : Round) : Prop :=
  ∀ facts, round.facts = some facts → facts.Storable previous

theorem roundStep_reviewAttempts_le {previous : LoopState} (round : Round)
    (h : previous.reviewAttempts ≤ 10) : (roundStep previous round).2.reviewAttempts ≤ 10 := by
  unfold roundStep
  cases hfacts : round.facts with
  | none => exact h
  | some facts => exact record_reviewAttempts_le (Round.facts_validated hfacts) h

theorem roundStep_fits_iff {previous : LoopState} (round : Round) (hfits : previous.Fits)
    (hattempts : previous.reviewAttempts ≤ 10) :
    (roundStep previous round).2.Fits ↔ RoundStorable previous round := by
  unfold roundStep RoundStorable
  cases hfacts : round.facts with
  | none => simp [hfits]
  | some facts =>
    simp only [Option.some.injEq, forall_eq']
    exact record_fits_iff (Round.facts_validated hfacts) hfits hattempts

/-- **Which runs keep their state.**  Every state recorded along a run of rounds is read back from
the text that is written for it, exactly when the issue at the start can be stored and so can every
round of the run. -/
theorem rounds_round_trip_iff (issue : Option ℕ∞) (rounds : List Round) :
    (∀ before, before <+: rounds →
      RoundTrips (Machine.final roundStep (initialState issue) before)) ↔
      IssueFits issue ∧ Machine.Along roundStep RoundStorable (initialState issue) rounds := by
  have hattempts : ∀ before : List Round,
      (Machine.final roundStep (initialState issue) before).reviewAttempts ≤ 10 := fun before =>
    Machine.invariant roundStep (fun s => s.reviewAttempts ≤ 10) (fun _ => True)
      (fun s round hs _ => roundStep_reviewAttempts_le round hs) before _ (Nat.zero_le _)
      fun _ _ => trivial
  have hrun := Machine.invariant_along_iff roundStep
    (fun s : LoopState => s.Fits ∧ s.reviewAttempts ≤ 10) RoundStorable
    (fun s round hs => by
      rw [roundStep_fits_iff round hs.1 hs.2]
      exact and_iff_left (roundStep_reviewAttempts_le round hs.2))
    rounds (initialState issue)
  simp only [hattempts, and_true, initialState_fits_iff] at hrun
  simp only [roundTrips_iff]
  have hstart : (initialState issue).reviewAttempts ≤ 10 := Nat.zero_le _
  simpa only [hstart, and_true] using hrun

end Runs

/-! ### A run that loses its state -/

/-- Complaints without texts. -/
@[reducible] def silentComplaints : Complaints := ⟨fun _ => [], fun _ => []⟩

/-- The context of a pull request without labels, checks or comment. -/
def sampleContext (body : Json) : Json :=
  .obj [
    (lit "pullRequest", .obj [
      (lit "number", .num 1), (lit "headSha", .str (lit "4f2a")), (lit "isDraft", .bool false),
      (lit "isFork", .bool false), (lit "labels", .arr []), (lit "body", body)]),
    (lit "checks", .arr []), (lit "requiredChecks", .arr [.str (lit "Tests")]),
    (lit "humanApprovals", .num 0)]

/-- A path of 513 units. -/
def longPath : Text := List.replicate 510 97 ++ lit ".ts"

/-- A round about a diff that adds a debugger statement at that path, with an approving review. -/
def longPathRound : Round where
  policy := sampleDocument "low" []
  context := sampleContext .null
  diff := lit "diff --git a/" ++ longPath ++ lit " b/" ++ longPath ++ lit "\n+debugger;\n"
  reviewOutputs := [some (lit "\x7b\"status\":\"approve\",\"findings\":[],\"summary\":\"ok\"\x7d")]
  proposedPolicy := none
  now := lit "2026-08-30T15:00:00.000Z"

/-- The state the round records. -/
def longPathState : LoopState :=
  @Machine.final _ _ _ (@roundStep silentComplaints asciiHost) (initialState none) [longPathRound]

/-- The round consumes an attempt and keeps a finding about the long path. -/
theorem longPathState_facts : longPathState.reviewAttempts = 1 ∧
    (longPathState.history.any fun e => e.findings.any fun r =>
      512 < (r.file.getD []).length) = true := by
  decide +kernel

theorem not_fits_of_long_file {s : LoopState} (h : (s.history.any fun e => e.findings.any fun r =>
    512 < (r.file.getD []).length) = true) : ¬ s.Fits := by
  intro hfits
  simp only [List.any_eq_true, decide_eq_true_eq] at h
  obtain ⟨e, he, r, hr, hlong⟩ := h
  have hfile := ((hfits.history e he).findings r hr).file
  cases hf : r.file with
  | none => simp [hf] at hlong
  | some file =>
    have := hfile file hf
    rw [hf, Option.getD_some] at hlong
    omega

/-- One attempt is used, and the state is not read back: the reader starts afresh. -/
theorem long_path_loses_state : longPathState.reviewAttempts = 1 ∧
    ¬ @RoundTrips asciiHost longPathState := by
  obtain ⟨hattempts, hlong⟩ := longPathState_facts
  refine ⟨hattempts, fun h => not_fits_of_long_file hlong ?_⟩
  exact (@roundTrips_iff asciiHost longPathState).mp h

end Newsdeck.Loop

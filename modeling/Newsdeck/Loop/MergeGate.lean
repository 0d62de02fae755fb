import Newsdeck.Loop.Aggregate

/-!
# The merge gate

`decideMerge` reduces the observable facts about a pull request (checks, reviews, tier verification,
flags, attempts used) to one of five decisions, the two conclusions the gate publishes and the
request for a fix round.  It is a cascade of early returns; everything that can stop a merge stands
before what permits one.

* `decideMerge_autoMerge_iff` — the whole cascade, read from its last line: the decision is
  `auto_merge` exactly when the input is `ClearToMerge`;
* `decideMerge_dispatch_iff` — a fix round is dispatched exactly with `changes_requested`;
* `decideMerge_changesRequested_lt` — and only while attempts are left.

A required name is looked up with `find`, so only its first state counts, and of the eight
conclusions the gate stops at five: `skipped` and `neutral` fall through with `success`.
`required_succeed_iff` and `gates_agree_iff` say for which inputs the published promises hold
nevertheless.
-/

namespace Newsdeck.Loop

open Ecma

inductive GateDecision where
  | autoMerge | humanApprovalRequired | changesRequested | blocked | waiting
  deriving DecidableEq, Repr

inductive CheckConclusion where
  | success | failure | pending | skipped | neutral | cancelled | timedOut | missing
  deriving DecidableEq, Repr

structure CheckState where
  name : Text
  conclusion : CheckConclusion
  deriving DecidableEq, Repr

/-- Verification the runner performed locally. -/
structure TierVerification where
  ok : Bool
  unavailable : List Text
  failed : List Text
  deriving DecidableEq, Repr

structure GateInput where
  risk : RiskLevel
  reviews : List ReviewResult
  requiredReviewers : ℕ
  checks : List CheckState
  requiredChecks : List Text
  reviewAttempts : ℕ
  maxReviewAttempts : ℕ
  humanApprovals : ℕ
  isFork : Bool
  isDraft : Bool
  blockingSeverity : Severity
  weakenedProtections : Option (List Finding)
  humanHold : Option Bool
  tierVerification : Option TierVerification

/-- What the gate publishes for one of its own check runs. -/
inductive GateConclusion where
  | success | failure
  deriving DecidableEq, Repr

structure GateOutcome where
  decision : GateDecision
  reasons : List Text
  riskGate : GateConclusion
  reviewGate : GateConclusion
  shouldDispatchFix : Bool
  review : ReviewResult

/-- `HUMAN_HOLD_LABEL`. -/
def humanHoldLabel : Text := lit "needs:human"

/-- `SELF_PUBLISHED_CHECKS`. -/
def selfPublishedChecks : List Text := [lit "loop/risk-gate", lit "loop/review-gate"]

def withoutSelfPublishedChecks (names : List Text) : List Text :=
  names.filter fun name => name ∉ selfPublishedChecks

/-- `checks.find((check) => check.name === name)`. -/
def findCheck (checks : List CheckState) (name : Text) : Option CheckState :=
  checks.find? fun check => check.name = name

def requiredCheckStates (input : GateInput) : List CheckState :=
  (withoutSelfPublishedChecks input.requiredChecks).map fun name =>
    (findCheck input.checks name).getD ⟨name, .missing⟩

/-- The conclusions a fix round is asked to address. -/
def isFailing (check : CheckState) : Bool :=
  check.conclusion = .failure || check.conclusion = .timedOut || check.conclusion = .cancelled

/-- `PENDING`. -/
def isPending (check : CheckState) : Bool :=
  check.conclusion = .pending || check.conclusion = .missing

namespace GateInput

/-- The weakened protections, none when the comparison was not made. -/
def weakened (input : GateInput) : List Finding := input.weakenedProtections.getD []

def tierUnavailable (input : GateInput) : List Text :=
  (input.tierVerification.map TierVerification.unavailable).getD []

def tierFailed (input : GateInput) : List Text :=
  (input.tierVerification.map TierVerification.failed).getD []

def tierOk (input : GateInput) : Bool := (input.tierVerification.map TierVerification.ok).getD true

end GateInput

section Gate

variable [Host]

def GateInput.aggregate (input : GateInput) : AggregateOutcome :=
  aggregateReviews ⟨input.reviews, input.requiredReviewers, input.blockingSeverity⟩

/-- The reasons collected before the first decision is taken. -/
def standingReasons (input : GateInput) : List Text :=
  (if input.aggregate.status ≠ .approve then input.aggregate.reasons else []) ++
  (if input.isFork then [lit "pull request originates from a fork"] else []) ++
  (if input.weakened.length > 0 then
    [decimal input.weakened.length ++ lit " control-plane protection(s) would be weakened: " ++
      join (lit "; ") (input.weakened.map Finding.description)] else []) ++
  (if input.tierFailed.length > 0 then
    [lit "`" ++ riskText input.risk ++ lit "` tier verification failed: " ++
      join (lit ", ") input.tierFailed] else []) ++
  (if input.tierUnavailable.length > 0 then
    [lit "`" ++ riskText input.risk ++ lit "` tier verification could not run: " ++
      join (lit ", ") input.tierUnavailable ++ lit ". An unrunnable check is not a passing one."]
    else [])

/-- Where the cascade returns. -/
inductive GateExit where
  | draft | humanHold | fork | weakensProtections | unusableReview | retriesExhausted
  | tierUnavailable | checksFailing | tierFailed | reviewFailed | checksPending | clear
  deriving DecidableEq, Repr

/-- The returns that no amount of green can override, and the one for drafts before them. -/
def firmStop (input : GateInput) : Option GateExit :=
  let failing := (requiredCheckStates input).filter isFailing
  let status := input.aggregate.status
  let retriesExhausted := input.reviewAttempts ≥ input.maxReviewAttempts
  let needsWork := status ≠ .approve ∨ failing.length > 0 ∨ input.tierFailed.length > 0
  if input.isDraft then some .draft
  else if input.humanHold = some true then some .humanHold
  else if input.isFork then some .fork
  else if input.weakened.length > 0 ∧ input.humanApprovals = 0 then some .weakensProtections
  else if status = .blocked then some .unusableReview
  else if needsWork ∧ retriesExhausted then some .retriesExhausted
  else if input.tierUnavailable.length > 0 then some .tierUnavailable
  else none

/-- The returns after them: what a fix round can address, and the wait for checks. -/
def softStop (input : GateInput) : Option GateExit :=
  let failing := (requiredCheckStates input).filter isFailing
  let pending := (requiredCheckStates input).filter isPending
  if failing.length > 0 then some .checksFailing
  else if input.tierFailed.length > 0 then some .tierFailed
  else if input.aggregate.status ≠ .approve then some .reviewFailed
  else if pending.length > 0 then some .checksPending
  else none

/-- The return that is taken. -/
def gateExit (input : GateInput) : GateExit :=
  match firmStop input with
  | some exit => exit
  | none =>
      match softStop input with
      | some exit => exit
      | none => .clear

/-- The decision passed to `outcome` at each return. -/
def GateExit.decision : GateExit → GateDecision
  | .draft => .waiting
  | .humanHold => .humanApprovalRequired
  | .fork => .humanApprovalRequired
  | .weakensProtections => .humanApprovalRequired
  | .unusableReview => .blocked
  | .retriesExhausted => .blocked
  | .tierUnavailable => .blocked
  | .checksFailing => .changesRequested
  | .tierFailed => .changesRequested
  | .reviewFailed => .changesRequested
  | .checksPending => .waiting
  | .clear => .autoMerge

/-- The second argument of `outcome` at each return, `false` when it is left out. -/
def GateExit.shouldDispatchFix : GateExit → Bool
  | .checksFailing => true
  | .tierFailed => true
  | .reviewFailed => true
  | .draft | .humanHold | .fork | .weakensProtections | .unusableReview | .retriesExhausted
  | .tierUnavailable | .checksPending | .clear => false

/-- What is put in front of the reasons at each return. -/
def GateExit.reason (input : GateInput) : GateExit → List Text
  | .draft => [lit "pull request is a draft"]
  | .humanHold => [lit "a person applied `" ++ humanHoldLabel ++ lit "`"]
  | .fork => [lit "fork pull requests are never merged automatically"]
  | .weakensProtections => [lit "this change weakens the loop’s own protections"]
  | .unusableReview => [lit "independent review could not reach a usable verdict"]
  | .retriesExhausted =>
      [lit "retry limit reached: " ++ decimal input.reviewAttempts ++ lit " of " ++
        decimal input.maxReviewAttempts ++ lit " review attempts used"]
  | .tierUnavailable => [lit "required verification could not be performed in this environment"]
  | .checksFailing =>
      [lit "required check(s) failing: " ++
        join (lit ", ") (((requiredCheckStates input).filter isFailing).map CheckState.name)]
  | .tierFailed => []
  | .reviewFailed => []
  | .checksPending =>
      [lit "required check(s) not yet reported: " ++
        join (lit ", ") (((requiredCheckStates input).filter isPending).map CheckState.name)]
  | .clear =>
      [lit "all required checks passed, `" ++ riskText input.risk ++
        lit "` tier verification succeeded, and " ++
        (if input.aggregate.received = 1 then lit "the independent review approved"
          else lit "all " ++ decimal input.aggregate.received ++
            lit " independent reviews approved")]

/-- Decide what may happen to a pull request. -/
def decideMerge (input : GateInput) : GateOutcome :=
  let exit := gateExit input
  let aggregate := input.aggregate
  { decision := exit.decision
    reasons := exit.reason input ++ standingReasons input
    riskGate :=
      if input.isFork ∨ input.weakened.length > 0 ∨ input.tierOk = false then .failure else .success
    reviewGate := if aggregate.status = .approve then .success else .failure
    shouldDispatchFix := exit.shouldDispatchFix
    review := ⟨aggregate.status, aggregate.findings, aggregate.summary⟩ }

end Gate

/-! ### What clears the gate -/

/-- The conclusions at which the gate does not stop. -/
def passes : CheckConclusion → Bool
  | .success | .skipped | .neutral => true
  | .failure | .pending | .cancelled | .timedOut | .missing => false

/-- Everything the gate looks at permits the merge. -/
structure ClearToMerge (input : GateInput) : Prop where
  ready : input.isDraft = false
  noHold : input.humanHold ≠ some true
  notFork : input.isFork = false
  protections : input.weakened = [] ∨ 0 < input.humanApprovals
  enoughReviews : input.requiredReviewers ≤ input.reviews.length
  approved : ∀ r ∈ input.reviews, r.status = .approve ∧
    ∀ f ∈ r.findings, isAtLeastSeverity f.severity input.blockingSeverity = false
  tierPassed : input.tierFailed = []
  tierRan : input.tierUnavailable = []
  checksPass : ∀ name ∈ input.requiredChecks, name ∉ selfPublishedChecks →
    ∃ c, findCheck input.checks name = some c ∧ passes c.conclusion = true

/-- A stop is not taken when its condition fails and no later stop is. -/
theorem ite_some_eq_none {α : Type} {p : Prop} [Decidable p] {a : α} {rest : Option α} :
    (if p then some a else rest) = none ↔ ¬ p ∧ rest = none := by
  split <;> simp_all

theorem passes_eq (c : CheckState) :
    passes c.conclusion = (!isFailing c && !isPending c) := by
  unfold isFailing isPending
  cases c.conclusion <;> rfl

theorem mem_requiredCheckStates {input : GateInput} {c : CheckState} :
    c ∈ requiredCheckStates input ↔ ∃ name ∈ input.requiredChecks, name ∉ selfPublishedChecks ∧
      (findCheck input.checks name).getD ⟨name, .missing⟩ = c := by
  simp only [requiredCheckStates, withoutSelfPublishedChecks, List.mem_map, List.mem_filter,
    decide_eq_true_eq, and_assoc]

/-- No required check fails and none is pending exactly when the first state of each passes. -/
theorem required_clear_iff (input : GateInput) :
    ((requiredCheckStates input).filter isFailing = [] ∧
      (requiredCheckStates input).filter isPending = []) ↔
      ∀ name ∈ input.requiredChecks, name ∉ selfPublishedChecks →
        ∃ c, findCheck input.checks name = some c ∧ passes c.conclusion = true := by
  simp only [List.filter_eq_nil_iff]
  constructor
  · rintro ⟨hfail, hpend⟩ name hname hself
    have hmem := mem_requiredCheckStates.mpr ⟨name, hname, hself, rfl⟩
    have hpass : passes ((findCheck input.checks name).getD ⟨name, .missing⟩).conclusion = true := by
      rw [passes_eq]
      simp [hfail _ hmem, hpend _ hmem]
    cases hfind : findCheck input.checks name with
    | none =>
      rw [hfind] at hpass
      exact absurd hpass (by simp [passes])
    | some c =>
      rw [hfind] at hpass
      exact ⟨c, rfl, hpass⟩
  · intro h
    have key : ∀ c ∈ requiredCheckStates input, passes c.conclusion = true := by
      intro c hc
      obtain ⟨name, hname, hself, rfl⟩ := mem_requiredCheckStates.mp hc
      obtain ⟨d, hd, hpass⟩ := h name hname hself
      rw [hd]
      exact hpass
    constructor <;> intro c hc <;> have hpass := key c hc <;> rw [passes_eq] at hpass <;>
      simp_all

section Gate

variable [Host]

theorem firmStop_none_iff (input : GateInput) :
    firmStop input = none ↔
      input.isDraft = false ∧ input.humanHold ≠ some true ∧ input.isFork = false ∧
      (input.weakened = [] ∨ 0 < input.humanApprovals) ∧ input.aggregate.status ≠ .blocked ∧
      ((input.aggregate.status = .approve ∧ (requiredCheckStates input).filter isFailing = [] ∧
        input.tierFailed = []) ∨ input.reviewAttempts < input.maxReviewAttempts) ∧
      input.tierUnavailable = [] := by
  unfold firmStop
  simp only [ite_some_eq_none, and_true, Bool.not_eq_true, not_and_or, not_or, not_not,
    gt_iff_lt, ge_iff_le, not_le, Nat.pos_iff_ne_zero, List.length_eq_zero_iff, ne_eq]

theorem softStop_none_iff (input : GateInput) :
    softStop input = none ↔
      (requiredCheckStates input).filter isFailing = [] ∧ input.tierFailed = [] ∧
      input.aggregate.status = .approve ∧ (requiredCheckStates input).filter isPending = [] := by
  unfold softStop
  simp only [ite_some_eq_none, and_true, not_not, gt_iff_lt, List.length_pos_iff, ne_eq]

/-- A firm stop never asks for a fix. -/
theorem firmStop_decision {input : GateInput} {exit : GateExit} (h : firmStop input = some exit) :
    exit.decision ≠ .changesRequested ∧ exit.decision ≠ .autoMerge := by
  unfold firmStop at h
  dsimp only at h
  split_ifs at h <;> simp only [Option.some.injEq] at h <;> subst h <;> decide

/-- A soft stop never merges, and it asks for a fix only because some work is needed. -/
theorem softStop_decision {input : GateInput} {exit : GateExit} (h : softStop input = some exit) :
    exit.decision ≠ .autoMerge ∧ (exit.decision = .changesRequested →
      ¬ (input.aggregate.status = .approve ∧ (requiredCheckStates input).filter isFailing = [] ∧
        input.tierFailed = [])) := by
  unfold softStop at h
  dsimp only at h
  split_ifs at h with hfail htier hreview hpend
  all_goals simp only [Option.some.injEq] at h; subst h
  · exact ⟨by decide, fun _ hclear => by simp [hclear.2.1] at hfail⟩
  · exact ⟨by decide, fun _ hclear => by simp [hclear.2.2] at htier⟩
  · exact ⟨by decide, fun _ hclear => hreview hclear.1⟩
  · exact ⟨by decide, fun hdec => absurd hdec (by decide)⟩

theorem decideMerge_decision (input : GateInput) :
    (decideMerge input).decision = (gateExit input).decision := rfl

/-- **When the gate merges.** -/
theorem decideMerge_autoMerge_iff (input : GateInput) :
    (decideMerge input).decision = .autoMerge ↔ ClearToMerge input := by
  have hagg : input.aggregate.status = .approve ↔ _ := aggregate_approve_iff
    ⟨input.reviews, input.requiredReviewers, input.blockingSeverity⟩
  have hreq := required_clear_iff input
  have hstops : (decideMerge input).decision = .autoMerge ↔
      firmStop input = none ∧ softStop input = none := by
    rw [decideMerge_decision, gateExit]
    cases hfirm : firmStop input with
    | some exit => simpa using (firmStop_decision hfirm).2
    | none =>
      cases hsoft : softStop input with
      | some exit => simpa using (softStop_decision hsoft).1
      | none => simp [GateExit.decision]
  rw [hstops, firmStop_none_iff, softStop_none_iff]
  constructor
  · rintro ⟨⟨hdraft, hhold, hfork, hprot, -, -, hran⟩, hfail, htier, happ, hpend⟩
    obtain ⟨hcount, hall⟩ := hagg.mp happ
    exact ⟨hdraft, hhold, hfork, hprot, hcount, hall, htier, hran, hreq.mp ⟨hfail, hpend⟩⟩
  · intro h
    have happ := hagg.mpr ⟨h.enoughReviews, h.approved⟩
    obtain ⟨hfail, hpend⟩ := hreq.mpr h.checksPass
    exact ⟨⟨h.ready, h.noHold, h.notFork, h.protections, by simp [happ],
      .inl ⟨happ, hfail, h.tierPassed⟩, h.tierRan⟩, hfail, h.tierPassed, happ, hpend⟩

/-- **A fix round goes out exactly with `changes_requested`.** -/
theorem decideMerge_dispatch_iff (input : GateInput) :
    (decideMerge input).shouldDispatchFix = true ↔
      (decideMerge input).decision = .changesRequested := by
  unfold decideMerge
  cases gateExit input <;> simp [GateExit.decision, GateExit.shouldDispatchFix]

/-- Changes are requested only while attempts are left: the guard on the retry limit is a firm stop,
and it covers every reason for which a soft stop asks for a fix. -/
theorem decideMerge_changesRequested_lt {input : GateInput}
    (h : (decideMerge input).decision = .changesRequested) :
    input.reviewAttempts < input.maxReviewAttempts := by
  rw [decideMerge_decision, gateExit] at h
  cases hfirm : firmStop input with
  | some exit =>
    rw [hfirm] at h
    exact absurd h (firmStop_decision hfirm).1
  | none =>
    rw [hfirm] at h
    obtain ⟨-, -, -, -, -, hwork, -⟩ := (firmStop_none_iff input).mp hfirm
    cases hsoft : softStop input with
    | some exit =>
      rw [hsoft] at h
      exact hwork.resolve_left ((softStop_decision hsoft).2 h)
    | none =>
      rw [hsoft] at h
      exact absurd h (by decide)

theorem decideMerge_riskGate (input : GateInput) :
    (decideMerge input).riskGate = .success ↔
      input.isFork = false ∧ input.weakened = [] ∧ input.tierOk = true := by
  have hdef : (decideMerge input).riskGate =
      if input.isFork ∨ input.weakened.length > 0 ∨ input.tierOk = false then .failure
      else .success := rfl
  rw [hdef]
  simp [List.length_pos_iff]

theorem decideMerge_reviewGate (input : GateInput) :
    (decideMerge input).reviewGate = .success ↔ input.aggregate.status = .approve := by
  have hdef : (decideMerge input).reviewGate =
      if input.aggregate.status = .approve then .success else .failure := rfl
  rw [hdef]
  simp

end Gate

/-! ### Required checks -/

/-- What `requiredChecks` promises: every name of it the gate does not publish itself was reported,
and only with `success`. -/
def RequiredChecksSucceed (input : GateInput) : Prop :=
  ∀ name ∈ input.requiredChecks, name ∉ selfPublishedChecks →
    (∃ c ∈ input.checks, c.name = name ∧ c.conclusion = .success) ∧
    ∀ c ∈ input.checks, c.name = name → c.conclusion = .success

/-- Some required check has a state other than `success` that the gate does not act on: its first
state is `skipped` or `neutral`, or the state stands behind the first one. -/
def OverlookedState (input : GateInput) : Prop :=
  ∃ name ∈ input.requiredChecks, name ∉ selfPublishedChecks ∧
    ∃ c ∈ input.checks, c.name = name ∧ c.conclusion ≠ .success ∧
      (findCheck input.checks name = some c → c.conclusion = .skipped ∨ c.conclusion = .neutral)

theorem mem_of_findCheck {checks : List CheckState} {name : Text} {c : CheckState}
    (h : findCheck checks name = some c) : c ∈ checks ∧ c.name = name := by
  unfold findCheck at h
  exact ⟨List.mem_of_find?_eq_some h, by simpa using List.find?_some h⟩

/-- **When a merge implies that the required checks succeeded.** -/
theorem required_succeed_iff [Host] (input : GateInput) :
    ((decideMerge input).decision = .autoMerge → RequiredChecksSucceed input) ↔
      ¬ (ClearToMerge input ∧ OverlookedState input) := by
  rw [decideMerge_autoMerge_iff]
  constructor
  · rintro h ⟨hclear, name, hname, hself, c, hc, hcname, hbad, -⟩
    exact hbad ((h hclear name hname hself).2 c hc hcname)
  · intro h hclear name hname hself
    obtain ⟨first, hfirst, hpass⟩ := hclear.checksPass name hname hself
    have hall : ∀ c ∈ input.checks, c.name = name → c.conclusion = .success := by
      intro c hc hcname
      by_contra hbad
      refine h ⟨hclear, name, hname, hself, c, hc, hcname, hbad, fun hfind => ?_⟩
      obtain rfl : first = c := by simpa [hfirst] using hfind
      cases hcon : first.conclusion <;> simp_all [passes]
    obtain ⟨hmem, hfname⟩ := mem_of_findCheck hfirst
    exact ⟨⟨first, hmem, hfname, hall first hmem hfname⟩, hall⟩

/-- A low-risk pull request with one approving review and no finding. -/
def approvedInput (checks : List CheckState) (requiredChecks : List Text) : GateInput where
  risk := .low
  reviews := [⟨.approve, [], lit "fine"⟩]
  requiredReviewers := 1
  checks := checks
  requiredChecks := requiredChecks
  reviewAttempts := 0
  maxReviewAttempts := 3
  humanApprovals := 0
  isFork := false
  isDraft := false
  blockingSeverity := .high
  weakenedProtections := none
  humanHold := none
  tierVerification := none

/-- A required check that was skipped does not hold the merge. -/
theorem skipped_check_merges :
    (@decideMerge asciiHost (approvedInput [⟨lit "Tests", .skipped⟩] [lit "Tests"])).decision =
      .autoMerge ∧
    ¬ RequiredChecksSucceed (approvedInput [⟨lit "Tests", .skipped⟩] [lit "Tests"]) := by
  refine ⟨by decide, fun h => ?_⟩
  have hstate := (h (lit "Tests") (by decide) (by decide)).2 ⟨lit "Tests", .skipped⟩ (by decide) rfl
  exact absurd hstate (by decide)

/-! ### The published conclusions -/

/-- The decision and the published conclusions do not contradict each other. -/
def OutcomeAgrees (outcome : GateOutcome) : Prop :=
  (outcome.decision = .autoMerge → outcome.riskGate = .success ∧ outcome.reviewGate = .success) ∧
  (outcome.shouldDispatchFix = true ↔ outcome.decision = .changesRequested)

/-- **When the decision and the gates agree.**  They part where a person's approval lets a weakened
protection through, and where the tier reports itself not ok without naming a step. -/
theorem gates_agree_iff [Host] (input : GateInput) :
    OutcomeAgrees (decideMerge input) ↔
      ¬ (ClearToMerge input ∧ (input.weakened ≠ [] ∨ input.tierOk = false)) := by
  unfold OutcomeAgrees
  rw [decideMerge_autoMerge_iff, decideMerge_riskGate, decideMerge_reviewGate]
  constructor
  · rintro ⟨hgates, -⟩ ⟨hclear, hbad⟩
    obtain ⟨⟨-, hweak, hok⟩, -⟩ := hgates hclear
    rcases hbad with hbad | hbad
    · exact hbad hweak
    · rw [hok] at hbad
      exact absurd hbad (by decide)
  · intro h
    refine ⟨fun hclear => ⟨⟨hclear.notFork, ?_, ?_⟩, ?_⟩, decideMerge_dispatch_iff input⟩
    · by_contra hweak
      exact h ⟨hclear, .inl hweak⟩
    · by_contra hok
      exact h ⟨hclear, .inr (by simpa using hok)⟩
    · exact (aggregate_approve_iff _).mpr ⟨hclear.enoughReviews, hclear.approved⟩

/-- The same pull request where one protection is weakened and a person approved. -/
def approvedWeakening : GateInput :=
  { approvedInput [] [] with
    humanApprovals := 1
    weakenedProtections := some [⟨.critical, some (lit ".github/loop-policy.json"), none,
      lit "Required check `Tests` was removed from the policy.", lit "Restore it.",
      lit "control-plane", lit "policy"⟩] }

/-- The gate says to merge and publishes a failing risk gate. -/
theorem approved_weakening_disagrees :
    (@decideMerge asciiHost approvedWeakening).decision = .autoMerge ∧
    (@decideMerge asciiHost approvedWeakening).riskGate = .failure ∧
    ¬ OutcomeAgrees (@decideMerge asciiHost approvedWeakening) := by
  refine ⟨by decide, by decide, fun h => ?_⟩
  exact absurd (h.1 (by decide)).1 (by decide)

end Newsdeck.Loop

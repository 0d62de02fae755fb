import Newsdeck.Loop.Aggregate
import Newsdeck.Loop.Risk
import Newsdeck.Runner.Git

/-!
# One issue, end to end

`workIssue` claims the issue, prepares a worktree, runs the bounded loop of coding rounds, and opens
or updates the pull request.  The program is cut where the source changes subject: the claim, the
preparation, the parts of a round, the loop, the publication, and `fail`, which every other exit goes
through.

A `Draft` is the pair of variables the source carries from one part to the next, the journal it last
saved and the record of the issue.  A part that may end the work returns the reason, and its caller
calls `fail`.
-/

namespace Newsdeck.Runner

open Ecma Loop Effects

inductive IssueStatus where
  | opened
  | updated
  | blocked
  | skipped
  deriving DecidableEq, Repr

def IssueStatus.text : IssueStatus → Text
  | .opened => lit "opened"
  | .updated => lit "updated"
  | .blocked => lit "blocked"
  | .skipped => lit "skipped"

structure IssueOutcome where
  issue : ℕ
  branch : Text
  status : IssueStatus
  pullRequest : Option ℕ
  risk : Option RiskAssessment
  detail : Text

structure WorkOptions where
  startRound : ℕ
  feedback : Option Text

/-- What one call of `workIssue` works on. -/
structure Job where
  deps : RunnerDeps
  issue : IssueSummary
  branch : Text
  worktree : Text
  options : WorkOptions

/-- Where the worktree of an issue lives. -/
def worktreePath (deps : RunnerDeps) (issue : ℕ) : Text :=
  deps.resolve [deps.repository, deps.config.worktreeRoot, worktreeName issue]

def newJob [Host] [Unicode] (deps : RunnerDeps) (issue : IssueSummary) (options : WorkOptions) :
    Job where
  deps := deps
  issue := issue
  branch := branchName issue.number issue.title
  worktree := worktreePath deps issue.number
  options := options

namespace Job

def number (job : Job) : ℕ := job.issue.number

def maxRounds (job : Job) : ℕ := job.deps.config.codingFixRounds

end Job

structure Draft where
  journal : Journal
  record : RunRecord

/-! ### The claim and the failure -/

def inProgressLabel : Text := lit "agent:in-progress"
def readyLabel : Text := lit "agent:ready"
def reviewLabel : Text := lit "agent:review"
def blockedLabel : Text := lit "agent:blocked"

def save (draft : Draft) : Action Draft := do
  let journal := upsertRun draft.journal draft.record
  writeJournal journal
  .ret { draft with journal }

/-- The record of an issue no journal knows. -/
def freshRecord (job : Job) (startedAt updatedAt : Text) : RunRecord where
  issue := job.number
  branch := job.branch
  worktree := job.worktree
  startedAt := startedAt
  updatedAt := updatedAt
  status := .inProgress
  fixRounds := 0
  ciRounds := 0
  conflictRounds := 0
  pullRequest := none
  risk := none
  attempts := []

/-- The record the journal has of the issue, or a fresh one. -/
def recordFor (job : Job) (journal : Journal) : Action RunRecord := do
  match findRun journal job.number with
  | some record => .ret record
  | none =>
      let startedAt ← now
      let updatedAt ← now
      .ret (freshRecord job startedAt updatedAt)

/-- The record as a run takes it up. -/
def taken (job : Job) (record : RunRecord) : RunRecord :=
  { record with branch := job.branch, worktree := job.worktree, status := .inProgress }

def claim (job : Job) : Action Draft := do
  createLog job.number
  logLine (lit "claim #" ++ decimal job.number)
  addLabels job.number [inProgressLabel]
  removeLabel job.number readyLabel
  let journal ← readJournal
  let record ← recordFor job journal
  save ⟨journal, taken job record⟩

def stoppedComment (job : Job) (detail : Text) : RunnerCommentInput where
  issue := job.number
  branch := job.branch
  agent := job.deps.codingName
  phase := lit "stopped"
  body := detail ++ lit "\n\nThe loop has moved on to independent work. This issue needs a person; nothing else is waiting on it."

def fail (job : Job) (draft : Draft) (detail : Text) : Action IssueOutcome := do
  let draft ← save { draft with record := { draft.record with status := .blocked } }
  logLine (lit "blocked: " ++ detail)
  removeLabel job.number inProgressLabel
  addLabels job.number [blockedLabel]
  comment job.number (stoppedComment job detail)
  .ret ⟨job.number, job.branch, .blocked, draft.record.pullRequest, none, detail⟩

/-- Start from current remote state, in the issue's own worktree. -/
def prepare (job : Job) : Action Unit := do
  fetchBase job.deps.repository job.deps.remote job.deps.defaultBranch
  ensureWorktree job.deps.repository job.worktree job.branch job.deps.base
  rebaseOntoBase job.worktree job.deps.base

/-! ### The parts of a round -/

/-- What a round learns from the rounds before it. -/
structure Lessons where
  review : Option ReviewResult
  verification : Option VerificationOutcome

def codingTask (job : Job) (round : ℕ) (lessons : Lessons) : CodingTask where
  issue := job.number
  title := job.issue.title
  body := job.issue.body.getD []
  worktree := job.worktree
  branch := job.branch
  review := lessons.review
  verification := lessons.verification
  feedback := if round = job.options.startRound then job.options.feedback else none
  round := round

def codingAttempt (round : ℕ) (at_ : Text) : CodingOutcome → Attempt
  | .ok summary => ⟨at_, if round = 0 then .implement else .fix, .ok, summary.take 2000⟩
  | .failed reason detail =>
      ⟨at_, if round = 0 then .implement else .fix, .failed,
        (reason ++ lit ": " ++ detail).take 2000⟩

/-- One invocation of the coding agent, and the round it spends. -/
def codingPass (job : Job) (round : ℕ) (draft : Draft) (lessons : Lessons) :
    Action (Draft × CodingOutcome) := do
  recordInvocation
  let coded ← implement (codingTask job round lessons)
  logArtifact (lit "coding-result-" ++ decimal round ++ lit ".json") (.coded coded)
  let at_ ← now
  let draft ← save { draft with
    record := appendAttempt { draft.record with fixRounds := round } (codingAttempt round at_ coded) }
  .ret (draft, coded)

/-- Whether the branch has anything to publish, after committing what the agent left. -/
def commitChange (job : Job) : Action Bool := do
  let committed ← commitAll job.worktree
    (job.issue.title ++ lit "\n\nCloses #" ++ decimal job.number)
  if committed then .ret true else hasCommitsBeyond job.worktree job.deps.base

/-- Commit; the reason why the work ends here, if it does. -/
def commitPass (job : Job) : Action (Option Text) := do
  match ← (commitChange job).attempt with
  | .error message => .ret (some (lit "Could not commit: " ++ message))
  | .ok true => .ret none
  | .ok false =>
      .ret (some (lit "The agent produced no change. There is nothing to open a pull request for."))

/-- The committed change, and the risk it was classified at. -/
structure Change where
  files : List Text
  diff : Text
  risk : RiskAssessment

/-- What the worktree's policy file proposes, when it is a valid policy and another one. -/
def proposedPolicyOf (text : Text) (fallback : LoopPolicy) : Option LoopPolicy := do
  let parsed ← (Json.parse text).bind parsePolicy
  if parsed = fallback then none else some parsed

def proposedPolicy (worktree : Text) (fallback : LoopPolicy) : Action (Option LoopPolicy) := do
  match ← (readPolicyFile worktree).attempt with
  | .error _ => .ret none
  | .ok text => .ret (proposedPolicyOf text fallback)

/-- What the classification throws on a policy signal that is no valid regular expression; the text
after the pattern is the engine's. -/
def invalidPattern : Text := lit "Invalid regular expression"

section Passes

variable [Host]

def classifyPass (job : Job) (draft : Draft) : Action (Draft × Change) := do
  let files ← changedFiles job.worktree job.deps.base
  let rawDiff ← git job.worktree (diffArgs job.deps.base)
  let headPolicy ← proposedPolicy job.worktree job.deps.policy
  match classifyRiskMonotonic
      ⟨parseUnifiedDiff rawDiff.stdout, job.issue.labels, job.deps.policy, headPolicy⟩ with
  | none => .throw invalidPattern
  | some risk =>
      logArtifact (lit "risk.json") (.risk risk)
      .ret ({ draft with record := { draft.record with risk := some risk.risk } },
        ⟨files, rawDiff.stdout, risk⟩)

def verifyPass (job : Job) (round : ℕ) (draft : Draft) (change : Change) :
    Action (Draft × VerificationOutcome) := do
  let verification ← verify ⟨job.worktree, change.risk.risk, job.deps.policy, change.files⟩
  logArtifact (lit "verification-" ++ decimal round ++ lit ".json") (.verification verification)
  let at_ ← now
  let draft ← save { draft with
    record := appendAttempt draft.record ⟨at_, .verify, if verification.ok then .ok else .failed,
      (formatVerification verification).take 2000⟩ }
  .ret (draft, verification)

/-- `deps.reviewers[index]`, or the last one. -/
def reviewerAt (deps : RunnerDeps) (index : ℕ) : Option ℕ :=
  if index < deps.reviewers then some index
  else if deps.reviewers = 0 then none
  else some (deps.reviewers - 1)

/-- One pass: the reviewer is asked until its answer is usable, `remaining` more times at most. -/
def reviewAttempts (reviewer index : ℕ) (task : ReviewTask) :
    ℕ → ℕ → GatheredReviews → Action GatheredReviews
  | 0, _, gathered => .ret gathered
  | remaining + 1, attempt, gathered => do
      recordInvocation
      match ← review reviewer task with
      | .ok result => .ret { gathered with usable := gathered.usable ++ [result] }
      | .failed reason =>
          reviewAttempts reviewer index task remaining (attempt + 1)
            { gathered with failures := gathered.failures ++
                [lit "Reviewer " ++ decimal (index + 1) ++ lit ", attempt " ++
                  decimal (attempt + 1) ++ lit ": " ++ reason] }

/-- The passes from `index` on. -/
def gatherFrom (deps : RunnerDeps) (task : ReviewTask) :
    ℕ → ℕ → GatheredReviews → Action GatheredReviews
  | 0, _, gathered => .ret gathered
  | remaining + 1, index, gathered =>
      match reviewerAt deps index with
      | none =>
          gatherFrom deps task remaining (index + 1)
            { gathered with failures := gathered.failures ++
                [lit "No reviewer is configured for pass " ++ decimal (index + 1) ++ lit "."] }
      | some reviewer => do
          let gathered ← reviewAttempts reviewer index task deps.config.reviewerRetryRounds 0 gathered
          gatherFrom deps task remaining (index + 1) gathered

/-- Run the independent review passes a tier requires. -/
def gatherReviews (deps : RunnerDeps) (required : ℕ) (task : ReviewTask) :
    Action GatheredReviews :=
  gatherFrom deps task required 0 ⟨[], []⟩

omit [Host] in
theorem reviewAttempts_usable (reviewer index : ℕ) (task : ReviewTask) (remaining : ℕ) :
    ∀ (attempt : ℕ) (gathered : GatheredReviews),
      (reviewAttempts reviewer index task remaining attempt gathered).Returns
        fun g => g.usable.length ≤ gathered.usable.length + 1 := by
  induction remaining with
  | zero =>
    intro attempt gathered
    exact Nat.le_succ _
  | succ remaining ih =>
    intro attempt gathered
    unfold reviewAttempts
    refine Prog.returns_bind fun _ => ?_
    refine Prog.returns_bind fun answer => Prog.returns_raise fun outcome _ => ?_
    split
    · show (gathered.usable ++ [_]).length ≤ _
      simp
    · exact (ih _ _).mono fun g hg => hg

omit [Host] in
theorem gatherFrom_usable (deps : RunnerDeps) (task : ReviewTask) (remaining : ℕ) :
    ∀ (index : ℕ) (gathered : GatheredReviews),
      (gatherFrom deps task remaining index gathered).Returns
        fun g => g.usable.length ≤ gathered.usable.length + remaining := by
  induction remaining with
  | zero =>
    intro index gathered
    exact Nat.le_refl _
  | succ remaining ih =>
    intro index gathered
    unfold gatherFrom
    split
    · exact (ih _ _).mono fun g hg => by
        have hle : g.usable.length ≤ gathered.usable.length + remaining := hg
        omega
    · refine Prog.returns_bind ((reviewAttempts_usable _ _ _ _ _ _).mono fun g hg => ?_)
      exact (ih _ g).mono fun g' hg' => by omega

omit [Host] in
/-- No more reviews are usable than were asked for. -/
theorem gatherReviews_usable (deps : RunnerDeps) (required : ℕ) (task : ReviewTask) :
    (gatherReviews deps required task).Returns fun g => g.usable.length ≤ required :=
  (gatherFrom_usable deps task required 0 ⟨[], []⟩).mono fun g hg => by
    have hle : g.usable.length ≤ 0 + required := hg
    omega

/-- Combine independent reviews into one verdict. -/
def combine (reviews : List ReviewResult) (policy : LoopPolicy) : ReviewResult :=
  let outcome := aggregateReviews ⟨reviews, reviews.length, policy.blockingSeverity⟩
  ⟨outcome.status, outcome.findings, outcome.summary⟩

def reviewTask (job : Job) (change : Change) : ReviewTask where
  worktree := job.worktree
  issue := job.number
  title := job.issue.title
  body := job.issue.body.getD []
  base := job.deps.base
  branch := job.branch
  diff := change.diff
  changedFiles := change.files

def reviewPass (job : Job) (round : ℕ) (draft : Draft) (change : Change) (required : ℕ) :
    Action (Draft × GatheredReviews) := do
  let reviews ← gatherReviews job.deps required (reviewTask job change)
  logArtifact (lit "review-results-" ++ decimal round ++ lit ".json") (.reviews reviews)
  let at_ ← now
  let draft ← save { draft with
    record := appendAttempt draft.record
      ⟨at_, .review, if reviews.usable.length = required then .ok else .failed,
        decimal reviews.usable.length ++ lit "/" ++ decimal required ++ lit " usable review(s)"⟩ }
  .ret (draft, reviews)

/-! ### The loop of rounds -/

/-- A change that was verified and approved. -/
structure Settled where
  change : Change
  verification : VerificationOutcome
  review : ReviewResult

inductive RoundEnd where
  | gaveUp (draft : Draft) (detail : Text)
  | again (draft : Draft) (lessons : Lessons)
  | settled (draft : Draft) (settled : Settled)

/-- The draft a round leaves behind. -/
def RoundEnd.draft : RoundEnd → Draft
  | .gaveUp draft _ => draft
  | .again draft _ => draft
  | .settled draft _ => draft

/-- The review half of a round, on a change that was verified. -/
def reviewRound (job : Job) (round : ℕ) (draft : Draft) (change : Change)
    (verification : VerificationOutcome) : Action RoundEnd := do
  let required := reviewersForRisk job.deps.policy change.risk.risk
  let (draft, reviews) ← reviewPass job round draft change required
  if reviews.usable.length < required then
    .ret (.gaveUp draft (lit "Only " ++ decimal reviews.usable.length ++ lit " of " ++
      decimal required ++ lit " required independent review(s) produced a usable result. A missing review is never an approval.\n\n" ++
      join (lit "\n") reviews.failures))
  else
    let verdict := combine reviews.usable job.deps.policy
    match verdict.status with
    | .blocked =>
        .ret (.gaveUp draft (lit "Independent review blocked this change: " ++ verdict.summary))
    | .requestChanges =>
        if round = job.maxRounds - 1 then
          .ret (.gaveUp draft (lit "Review still asks for changes after " ++ decimal job.maxRounds ++
            lit " round(s).\n\n" ++ renderReview verdict))
        else .ret (.again draft ⟨some verdict, some verification⟩)
    | .approve => .ret (.settled draft ⟨change, verification, verdict⟩)

/-- The verification half of a round, on a change that was committed. -/
def verifyRound (job : Job) (round : ℕ) (draft : Draft) : Action RoundEnd := do
  let (draft, change) ← classifyPass job draft
  let (draft, verification) ← verifyPass job round draft change
  if verification.unavailable.length > 0 then
    .ret (.gaveUp draft (lit "The `" ++ riskText change.risk.risk ++
      lit "` tier requires verification this machine cannot perform: " ++
      join (lit ", ") verification.unavailable ++ lit ".\n\n" ++ formatVerification verification))
  else if !verification.ok then
    if round = job.maxRounds - 1 then
      .ret (.gaveUp draft (lit "Local verification is still failing after " ++
        decimal job.maxRounds ++ lit " round(s).\n\n" ++ formatVerification verification))
    else .ret (.again draft ⟨none, some verification⟩)
  else reviewRound job round draft change verification

/-- One round: code, commit, classify, verify, review. -/
def runRound (job : Job) (round : ℕ) (draft : Draft) (lessons : Lessons) : Action RoundEnd := do
  let (draft, coded) ← codingPass job round draft lessons
  match coded with
  | .failed reason detail =>
      .ret (.gaveUp draft (lit "The coding agent stopped: " ++ reason ++ lit "\n\n" ++ detail))
  | .ok _ =>
      match ← commitPass job with
      | some detail => .ret (.gaveUp draft detail)
      | none => verifyRound job round draft

/-- The rounds from `round` on, `remaining` of them at most. -/
def runRounds (job : Job) : ℕ → ℕ → Draft → Lessons → Action RoundEnd
  | 0, _, draft, _ =>
      .ret (.gaveUp draft (lit "The change never reached a reviewable, verified state."))
  | remaining + 1, round, draft, lessons => do
      match ← runRound job round draft lessons with
      | .again draft lessons => runRounds job remaining (round + 1) draft lessons
      | ending => .ret ending

end Passes

/-! ### The publication -/

section Publication

variable [Host] [Unicode]

/-- The pull request the branch already has, if it is still open, or a new one. -/
def openPullRequest (job : Job) (settled : Settled) : Action (ℕ × IssueStatus) := do
  let existing ← pullRequestForBranch job.branch
  match existing.filter fun pr => Unicode.toUpperCase pr.state = lit "OPEN" with
  | some pr => .ret (pr.number, .updated)
  | none =>
      let number ← createPullRequest
        { base := job.deps.defaultBranch
          head := job.branch
          title := job.issue.title
          body := pullRequestBody job.issue settled.change.files settled.verification
            (some settled.review) settled.change.risk }
      .ret (number, .opened)

def publishAttempt (at_ : Text) (number : ℕ) : Attempt :=
  ⟨at_, .publish, .ok, lit "Pull request #" ++ decimal number⟩

/-- After the push: the pull request, the journal, the labels, and the hand-over to GitHub. -/
def handOver (job : Job) (draft : Draft) (settled : Settled) : Action IssueOutcome := do
  let (number, status) ← openPullRequest job settled
  let at_ ← now
  let _ ← save { draft with
    record := { appendAttempt draft.record (publishAttempt at_ number) with
      status := .awaitingReview
      pullRequest := some number
      risk := some settled.change.risk.risk } }
  logLine (lit "pull request #" ++ decimal number ++ lit " (" ++ status.text ++ lit ")")
  removeLabel job.number inProgressLabel
  addLabels job.number [reviewLabel]
  let _ ← (enableAutoMerge number).attempt
  .ret ⟨job.number, job.branch, status, some number, some settled.change.risk,
    lit "Pull request #" ++ decimal number ++ lit " (" ++ status.text ++ lit "), `" ++
      riskText settled.change.risk.risk ++ lit "` risk, auto-merge requested."⟩

def publish (job : Job) (draft : Draft) (settled : Settled) : Action IssueOutcome := do
  match ← (pushBranch job.worktree job.deps.remote job.branch).attempt with
  | .error message => fail job draft (lit "Could not push: " ++ message)
  | .ok pushed =>
      if pushed.code ≠ 0 then
        fail job draft (lit "Could not push `" ++ job.branch ++ lit "`: " ++
          orElseText (trim pushed.stderr) (trim pushed.stdout))
      else handOver job draft settled

/-! ### The whole -/

/-- From the prepared worktree on. -/
def implementIssue (job : Job) (draft : Draft) : Action IssueOutcome := do
  let installed ← install job.worktree
  if installed.code ≠ 0 then
    fail job draft (lit "`bun install --frozen-lockfile` failed in the worktree:\n\n" ++
      takeLast 2000 (trim installed.stderr))
  else if job.options.startRound ≥ job.maxRounds then
    fail job draft (lit "The " ++ decimal job.maxRounds ++ lit "-round budget for this issue is already spent. Resuming would loop without end; this needs a human.")
  else
    match ← runRounds job (job.maxRounds - job.options.startRound) job.options.startRound draft
        ⟨none, none⟩ with
    | .settled draft settled => publish job draft settled
    | .gaveUp draft detail => fail job draft detail
    | .again draft _ =>
        fail job draft (lit "The change never reached a reviewable, verified state.")

def workJob (job : Job) : Action IssueOutcome := do
  let draft ← claim job
  match ← (prepare job).attempt with
  | .error message => fail job draft (lit "Could not prepare the worktree: " ++ message)
  | .ok () => implementIssue job draft

/-- Implement one issue, end to end, up to the pull request. -/
def workIssue (deps : RunnerDeps) (issue : IssueSummary) (options : WorkOptions) :
    Action IssueOutcome :=
  workJob (newJob deps issue options)

end Publication

end Newsdeck.Runner

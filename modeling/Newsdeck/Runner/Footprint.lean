import Newsdeck.Runner.Unattended

/-!
# Which operations each part performs

One lemma for each part of the runner: whatever the world answers, it performs operations of these
kinds only.

* `IsGit`, `IsReview` — the parts that talk to git, and to the reviewers, alone;
* `WorkOp` — all of `workIssue`: it labels, comments on and hands to the agent its own issue only;
* `PlanOp`, `MoveOp` — what `runOnce` asks before it decides, and all of `advance`.
-/

namespace Newsdeck.Runner

open Ecma Loop Effects Effects.Prog

/-! ### Git -/

def IsGit (op : Op) : Prop := ∃ cwd args, op = .git cwd args

theorem git_emits (cwd : Text) (args : List Text) : (git cwd args).Emits IsGit :=
  ⟨⟨cwd, args, rfl⟩, fun answer => emits_raise answer⟩

/-- A git command that is no push. -/
def IsLocalGit (op : Op) : Prop := ∃ cwd args, op = .git cwd args ∧ args.head? ≠ some (lit "push")

theorem isGit_of_isLocalGit (op : Op) (h : IsLocalGit op) : IsGit op := by
  obtain ⟨cwd, args, rfl, -⟩ := h
  exact ⟨cwd, args, rfl⟩

/-- A command is told from a push by its first word. -/
theorem git_local {command : Text} (h : command ≠ lit "push") (cwd : Text) (rest : List Text) :
    (git cwd (command :: rest)).Emits IsLocalGit :=
  ⟨⟨cwd, _, rfl, fun heq => h (Option.some.inj heq)⟩, fun answer => emits_raise answer⟩

theorem expect_local {command : Text} (h : command ≠ lit "push") (cwd : Text) (rest : List Text) :
    (expect cwd (command :: rest)).Emits IsLocalGit := by
  unfold expect
  refine emits_bind (git_local h cwd rest) fun result => ?_
  split <;> trivial

theorem fetchBase_local (repository remote branch : Text) :
    (fetchBase repository remote branch).Emits IsLocalGit := by
  unfold fetchBase
  exact emits_bind (expect_local (by decide) _ _) fun _ => trivial

theorem changedFiles_local (cwd base : Text) : (changedFiles cwd base).Emits IsLocalGit := by
  unfold changedFiles
  exact emits_bind (expect_local (by decide) _ _) fun _ => trivial

theorem hasCommitsBeyond_local (cwd base : Text) : (hasCommitsBeyond cwd base).Emits IsLocalGit := by
  unfold hasCommitsBeyond
  exact emits_bind (expect_local (by decide) _ _) fun _ => trivial

theorem ensureWorktree_local (repository path branch base : Text) :
    (ensureWorktree repository path branch base).Emits IsLocalGit := by
  have hadd : ∀ rest, (expect repository (lit "worktree" :: rest)).Emits IsLocalGit :=
    expect_local (by decide) repository
  unfold ensureWorktree
  split
  · trivial
  · refine emits_bind (git_local (by decide) _ _) fun existing => ?_
    split
    · trivial
    · refine emits_bind (git_local (by decide) _ _) fun branchExists => ?_
      refine emits_bind ?_ fun _ => trivial
      split
      · exact hadd _
      · exact hadd _

theorem rebaseOntoBase_local (worktree base : Text) :
    (rebaseOntoBase worktree base).Emits IsLocalGit := by
  unfold rebaseOntoBase
  refine emits_bind (git_local (by decide) _ _) fun behind => ?_
  split
  · trivial
  · refine emits_bind (git_local (by decide) _ _) fun merged => ?_
    split
    · exact emits_bind (git_local (by decide) _ _) fun _ => trivial
    · trivial

theorem commitAll_local (cwd message : Text) : (commitAll cwd message).Emits IsLocalGit := by
  unfold commitAll
  refine emits_bind (expect_local (by decide) _ _) fun _ => ?_
  refine emits_bind (git_local (by decide) _ _) fun staged => ?_
  split
  · trivial
  · exact emits_bind (expect_local (by decide) _ _) fun _ => trivial

theorem removeWorktree_local (repository path : Text) :
    (removeWorktree repository path).Emits IsLocalGit := by
  unfold removeWorktree
  exact emits_bind (git_local (by decide) _ _) fun _ => trivial

theorem prepare_local (job : Job) : (prepare job).Emits IsLocalGit := by
  unfold prepare
  exact emits_bind (fetchBase_local _ _ _) fun _ =>
    emits_bind (ensureWorktree_local _ _ _ _) fun _ => rebaseOntoBase_local _ _

theorem commitChange_local (job : Job) : (commitChange job).Emits IsLocalGit := by
  unfold commitChange
  refine emits_bind (commitAll_local _ _) fun committed => ?_
  split
  · trivial
  · exact hasCommitsBeyond_local _ _

theorem commitPass_local (job : Job) : (commitPass job).Emits IsLocalGit := by
  unfold commitPass
  refine emits_bind (emits_attempt (commitChange_local job)) fun result => ?_
  split <;> trivial

theorem changedFiles_emits (cwd base : Text) : (changedFiles cwd base).Emits IsGit :=
  (changedFiles_local cwd base).mono isGit_of_isLocalGit

theorem pushBranch_emits (cwd remote branch : Text) :
    (pushBranch cwd remote branch).Emits IsGit := by
  unfold pushBranch
  split
  · trivial
  · exact git_emits _ _

theorem removeWorktree_emits (repository path : Text) :
    (removeWorktree repository path).Emits IsGit :=
  (removeWorktree_local repository path).mono isGit_of_isLocalGit

theorem prepare_emits (job : Job) : (prepare job).Emits IsGit :=
  (prepare_local job).mono isGit_of_isLocalGit

theorem commitPass_emits (job : Job) : (commitPass job).Emits IsGit :=
  (commitPass_local job).mono isGit_of_isLocalGit

theorem removeOwnWorktree_emits (deps : RunnerDeps) (record : RunRecord) :
    (removeOwnWorktree deps record).Emits IsGit := by
  unfold removeOwnWorktree
  split
  · exact emits_bind (emits_attempt (removeWorktree_emits _ _)) fun _ => trivial
  · trivial

/-! ### Reviews -/

def IsReview (op : Op) : Prop := op = .recordInvocation ∨ ∃ reviewer task, op = .review reviewer task

theorem reviewAttempts_emits (reviewer index : ℕ) (task : ReviewTask) (remaining : ℕ) :
    ∀ (attempt : ℕ) (gathered : GatheredReviews),
      (reviewAttempts reviewer index task remaining attempt gathered).Emits IsReview := by
  induction remaining with
  | zero => intro attempt gathered; trivial
  | succ remaining ih =>
    intro attempt gathered
    unfold reviewAttempts
    refine emits_bind ⟨.inl rfl, fun _ => trivial⟩ fun _ => ?_
    refine emits_bind ⟨.inr ⟨_, _, rfl⟩, fun answer => emits_raise answer⟩ fun outcome => ?_
    split
    · trivial
    · exact ih _ _

theorem gatherFrom_emits (deps : RunnerDeps) (task : ReviewTask) (remaining : ℕ) :
    ∀ (index : ℕ) (gathered : GatheredReviews),
      (gatherFrom deps task remaining index gathered).Emits IsReview := by
  induction remaining with
  | zero => intro index gathered; trivial
  | succ remaining ih =>
    intro index gathered
    unfold gatherFrom
    split
    · exact ih _ _
    · exact emits_bind (reviewAttempts_emits _ _ _ _ _ _) fun gathered => ih _ gathered

theorem gatherReviews_emits (deps : RunnerDeps) (required : ℕ) (task : ReviewTask) :
    (gatherReviews deps required task).Emits IsReview :=
  gatherFrom_emits deps task required 0 ⟨[], []⟩

theorem proposedPolicy_emits (worktree : Text) (fallback : LoopPolicy) :
    (proposedPolicy worktree fallback).Emits (· = .readPolicyFile worktree) := by
  unfold proposedPolicy
  refine emits_bind (emits_attempt ⟨rfl, fun answer => emits_raise answer⟩) fun text => ?_
  split <;> trivial

/-! ### One issue -/

/-- The operations of one call of `workIssue`. -/
def WorkOp (number : ℕ) : Op → Prop
  | .addLabels issue _ => issue = number
  | .removeLabel issue _ => issue = number
  | .comment issue _ => issue = number
  | .implement task => task.issue = number
  | .issues => False
  | .issue _ => False
  | .pullRequest _ => False
  | .updateBranch _ => False
  | .mergeability _ => False
  | .stopping => False
  | .checkBudget => False
  | .recordIssue => False
  | .snapshot => False
  | .sleep _ => False
  | _ => True

/-- The operations once the issue is claimed: it is claimed once. -/
def LaterOp (number : ℕ) : Op → Prop
  | .addLabels issue labels => issue = number ∧ inProgressLabel ∉ labels
  | op => WorkOp number op

theorem workOp_of_laterOp {number : ℕ} (op : Op) (h : LaterOp number op) : WorkOp number op := by
  cases op <;> first | exact h | exact h.1

theorem laterOp_of_isGit {number : ℕ} (op : Op) (h : IsGit op) : LaterOp number op := by
  obtain ⟨cwd, args, rfl⟩ := h
  trivial

theorem laterOp_of_isReview {number : ℕ} (op : Op) (h : IsReview op) : LaterOp number op := by
  rcases h with rfl | ⟨reviewer, task, rfl⟩
  · trivial
  · trivial

section Work

variable {number : ℕ}

theorem save_emits (draft : Draft) : (save draft).Emits (LaterOp number) := by
  unfold save
  exact emits_bind ⟨trivial, fun answer => emits_raise answer⟩ fun _ => trivial

theorem logLine_emits (text : Text) : (logLine text).Emits (LaterOp number) :=
  ⟨trivial, fun answer => emits_raise answer⟩

theorem logArtifact_emits (name : Text) (value : Artifact) :
    (logArtifact name value).Emits (LaterOp number) :=
  ⟨trivial, fun answer => emits_raise answer⟩

theorem now_emits : now.Emits (LaterOp number) := ⟨trivial, fun _ => trivial⟩

theorem addLabels_emits {labels : List Text} (h : inProgressLabel ∉ labels) :
    (addLabels number labels).Emits (LaterOp number) :=
  ⟨⟨rfl, h⟩, fun answer => emits_raise answer⟩

theorem inProgressLabel_notMem_blocked : inProgressLabel ∉ [blockedLabel] := by
  simp [blockedLabel, inProgressLabel]

theorem inProgressLabel_notMem_review : inProgressLabel ∉ [reviewLabel] := by
  simp [reviewLabel, inProgressLabel]

theorem removeLabel_emits (label : Text) : (removeLabel number label).Emits (LaterOp number) :=
  ⟨rfl, fun answer => emits_raise answer⟩

theorem recordFor_emits (job : Job) (journal : Journal) :
    (recordFor job journal).Emits (LaterOp number) := by
  unfold recordFor
  split
  · trivial
  · exact emits_bind now_emits fun _ => emits_bind now_emits fun _ => trivial

theorem fail_emits (job : Job) (draft : Draft) (detail : Text) :
    (fail job draft detail).Emits (LaterOp job.number) := by
  unfold fail
  refine emits_bind (save_emits _) fun draft => ?_
  refine emits_bind (logLine_emits _) fun _ => ?_
  refine emits_bind (removeLabel_emits _) fun _ => ?_
  refine emits_bind (addLabels_emits inProgressLabel_notMem_blocked) fun _ => ?_
  exact emits_bind ⟨rfl, fun answer => emits_raise answer⟩ fun _ => trivial

theorem codingPass_emits (job : Job) (round : ℕ) (draft : Draft) (lessons : Lessons) :
    (codingPass job round draft lessons).Emits (LaterOp job.number) := by
  unfold codingPass
  refine emits_bind ⟨trivial, fun _ => trivial⟩ fun _ => ?_
  refine emits_bind ⟨rfl, fun answer => emits_raise answer⟩ fun coded => ?_
  refine emits_bind (logArtifact_emits _ _) fun _ => ?_
  refine emits_bind now_emits fun at_ => ?_
  exact emits_bind (save_emits _) fun draft => trivial

theorem verifyPass_emits (job : Job) (round : ℕ) (draft : Draft) (change : Change) :
    (verifyPass job round draft change).Emits (LaterOp number) := by
  unfold verifyPass
  refine emits_bind ⟨trivial, fun answer => emits_raise answer⟩ fun verification => ?_
  refine emits_bind (logArtifact_emits _ _) fun _ => ?_
  refine emits_bind now_emits fun at_ => ?_
  exact emits_bind (save_emits _) fun draft => trivial

theorem reviewPass_emits (job : Job) (round : ℕ) (draft : Draft) (change : Change) (required : ℕ) :
    (reviewPass job round draft change required).Emits (LaterOp number) := by
  unfold reviewPass
  refine emits_bind ((gatherReviews_emits _ _ _).mono laterOp_of_isReview) fun reviews => ?_
  refine emits_bind (logArtifact_emits _ _) fun _ => ?_
  refine emits_bind now_emits fun at_ => ?_
  exact emits_bind (save_emits _) fun draft => trivial

variable [Host]

theorem classifyPass_emits (job : Job) (draft : Draft) :
    (classifyPass job draft).Emits (LaterOp number) := by
  unfold classifyPass
  refine emits_bind ((changedFiles_emits _ _).mono laterOp_of_isGit) fun files => ?_
  refine emits_bind ((git_emits _ _).mono laterOp_of_isGit) fun rawDiff => ?_
  refine emits_bind ((proposedPolicy_emits _ _).mono ?_) fun headPolicy => ?_
  · rintro op rfl
    trivial
  · split
    · trivial
    · exact emits_bind (logArtifact_emits _ _) fun _ => trivial

theorem reviewRound_emits (job : Job) (round : ℕ) (draft : Draft) (change : Change)
    (verification : VerificationOutcome) :
    (reviewRound job round draft change verification).Emits (LaterOp number) := by
  unfold reviewRound
  refine emits_bind (reviewPass_emits _ _ _ _ _) fun result => ?_
  dsimp only
  split
  · trivial
  · split
    · trivial
    · split <;> trivial
    · trivial

theorem verifyRound_emits (job : Job) (round : ℕ) (draft : Draft) :
    (verifyRound job round draft).Emits (LaterOp number) := by
  unfold verifyRound
  refine emits_bind (classifyPass_emits _ _) fun classified => ?_
  refine emits_bind (verifyPass_emits _ _ _ _) fun verified => ?_
  dsimp only
  split
  · trivial
  · split
    · split <;> trivial
    · exact reviewRound_emits _ _ _ _ _

theorem runRound_emits (job : Job) (round : ℕ) (draft : Draft) (lessons : Lessons) :
    (runRound job round draft lessons).Emits (LaterOp job.number) := by
  unfold runRound
  refine emits_bind (codingPass_emits _ _ _ _) fun coded => ?_
  dsimp only
  split
  · trivial
  · refine emits_bind ((commitPass_emits job).mono laterOp_of_isGit) fun ending => ?_
    split
    · trivial
    · exact verifyRound_emits _ _ _

theorem runRounds_emits (job : Job) (remaining : ℕ) :
    ∀ (round : ℕ) (draft : Draft) (lessons : Lessons),
      (runRounds job remaining round draft lessons).Emits (LaterOp job.number) := by
  induction remaining with
  | zero => intro round draft lessons; trivial
  | succ remaining ih =>
    intro round draft lessons
    unfold runRounds
    refine emits_bind (runRound_emits _ _ _ _) fun ending => ?_
    split
    · exact ih _ _ _
    · trivial

variable [Unicode]

omit [Host] in
theorem openPullRequest_emits (job : Job) (settled : Settled) :
    (openPullRequest job settled).Emits (LaterOp number) := by
  unfold openPullRequest
  refine emits_bind ⟨trivial, fun answer => emits_raise answer⟩ fun existing => ?_
  split
  · trivial
  · exact emits_bind ⟨trivial, fun answer => emits_raise answer⟩ fun _ => trivial

omit [Host] in
theorem handOver_emits (job : Job) (draft : Draft) (settled : Settled) :
    (handOver job draft settled).Emits (LaterOp job.number) := by
  unfold handOver
  refine emits_bind (openPullRequest_emits _ _) fun opened => ?_
  dsimp only
  refine emits_bind now_emits fun at_ => ?_
  refine emits_bind (save_emits _) fun _ => ?_
  refine emits_bind (logLine_emits _) fun _ => ?_
  refine emits_bind (removeLabel_emits _) fun _ => ?_
  refine emits_bind (addLabels_emits inProgressLabel_notMem_review) fun _ => ?_
  exact emits_bind (emits_attempt ⟨trivial, fun answer => emits_raise answer⟩) fun _ => trivial

omit [Host] in
theorem publish_emits (job : Job) (draft : Draft) (settled : Settled) :
    (publish job draft settled).Emits (LaterOp job.number) := by
  unfold publish
  refine emits_bind (emits_attempt ((pushBranch_emits _ _ _).mono laterOp_of_isGit)) fun pushed => ?_
  split
  · exact fail_emits _ _ _
  · split
    · exact fail_emits _ _ _
    · exact handOver_emits _ _ _

theorem implementIssue_emits (job : Job) (draft : Draft) :
    (implementIssue job draft).Emits (LaterOp job.number) := by
  unfold implementIssue
  refine emits_bind ⟨trivial, fun answer => emits_raise answer⟩ fun installed => ?_
  split
  · exact fail_emits _ _ _
  · split
    · exact fail_emits _ _ _
    · refine emits_bind (runRounds_emits _ _ _ _ _) fun ending => ?_
      split
      · exact publish_emits _ _ _
      · exact fail_emits _ _ _
      · exact fail_emits _ _ _

/-- What is left of `workIssue` when the issue is claimed. -/
theorem afterClaim_emits (job : Job) (draft : Draft) :
    ((prepare job).attempt >>= fun prepared => match prepared with
      | .error message => fail job draft (lit "Could not prepare the worktree: " ++ message)
      | .ok () => implementIssue job draft).Emits (LaterOp job.number) := by
  refine emits_bind (emits_attempt ((prepare_emits job).mono laterOp_of_isGit)) fun prepared => ?_
  split
  · exact fail_emits _ _ _
  · exact implementIssue_emits _ _

theorem workJob_emits (job : Job) : (workJob job).Emits (WorkOp job.number) := by
  unfold workJob
  refine emits_bind ?_ fun draft => (afterClaim_emits job draft).mono workOp_of_laterOp
  unfold claim
  refine emits_bind ⟨trivial, fun answer => emits_raise answer⟩ fun _ => ?_
  refine emits_bind ⟨trivial, fun answer => emits_raise answer⟩ fun _ => ?_
  refine emits_bind ⟨rfl, fun answer => emits_raise answer⟩ fun _ => ?_
  refine emits_bind ⟨rfl, fun answer => emits_raise answer⟩ fun _ => ?_
  refine emits_bind ⟨trivial, fun _ => trivial⟩ fun journal => ?_
  refine emits_bind ((recordFor_emits job journal).mono workOp_of_laterOp) fun record => ?_
  exact (save_emits _).mono workOp_of_laterOp

/-- **The footprint of `workIssue`.** -/
theorem workIssue_emits (deps : RunnerDeps) (issue : IssueSummary) (options : WorkOptions) :
    (workIssue deps issue options).Emits (WorkOp issue.number) :=
  workJob_emits (newJob deps issue options)

end Work

/-! ### Decisions -/

/-- The operations of a decision of `runOnce`. -/
def PlanOp : Op → Prop
  | .readJournal => True
  | .pullRequest _ => True
  | .mergeability _ => True
  | .issue _ => True
  | .issues => True
  | _ => False

section Decisions

variable [Host] [Unicode]

theorem resumable_emits (deps : RunnerDeps) (record : RunRecord) :
    (resumable deps record).Emits PlanOp := by
  unfold resumable
  split
  · trivial
  · refine emits_bind ⟨trivial, fun answer => emits_raise answer⟩ fun pr => ?_
    split
    · trivial
    · exact emits_bind ⟨trivial, fun answer => emits_raise answer⟩ fun _ => trivial

theorem plan_emits (deps : RunnerDeps) (skip : Option (List ℕ)) :
    (plan deps skip).Emits PlanOp := by
  unfold plan
  refine emits_bind ⟨trivial, fun _ => trivial⟩ fun journal => ?_
  split
  · unfold planResume
    refine emits_bind (resumable_emits deps _) fun resumption => ?_
    split
    · trivial
    · exact emits_bind ⟨trivial, fun answer => emits_raise answer⟩ fun _ => trivial
  · unfold planStart
    refine emits_bind ⟨trivial, fun answer => emits_raise answer⟩ fun listed => ?_
    dsimp only
    split <;> trivial

end Decisions

/-! ### Pull requests -/

/-- The operations of one call of `advance`. -/
def MoveOp : Op → Prop
  | .readJournal => True
  | .writeJournal _ => True
  | .git _ _ => True
  | .pullRequest _ => True
  | .mergeability _ => True
  | .updateBranch _ => True
  | .removeLabel _ label => label = reviewLabel
  | .addLabels _ labels => labels = [blockedLabel]
  | .comment _ _ => True
  | _ => False

theorem moveOp_of_isGit (op : Op) (h : IsGit op) : MoveOp op := by
  obtain ⟨cwd, args, rfl⟩ := h
  trivial

theorem finishRun_emits (deps : RunnerDeps) (record : RunRecord) (status : RunStatus) :
    (finishRun deps record status).Emits MoveOp := by
  unfold finishRun
  refine emits_bind ((removeOwnWorktree_emits deps record).mono moveOp_of_isGit) fun _ => ?_
  refine emits_bind ⟨trivial, fun _ => trivial⟩ fun journal => ?_
  exact ⟨trivial, fun answer => emits_raise answer⟩

theorem blockRun_emits (deps : RunnerDeps) (record : RunRecord) (detail : Text) :
    (blockRun deps record detail).Emits MoveOp := by
  unfold blockRun
  refine emits_bind ⟨trivial, fun _ => trivial⟩ fun journal => ?_
  refine emits_bind ⟨trivial, fun answer => emits_raise answer⟩ fun _ => ?_
  refine emits_bind ⟨rfl, fun answer => emits_raise answer⟩ fun _ => ?_
  refine emits_bind ⟨rfl, fun answer => emits_raise answer⟩ fun _ => ?_
  exact ⟨trivial, fun answer => emits_raise answer⟩

theorem countCiRound_emits (record : RunRecord) : (countCiRound record).Emits MoveOp := by
  unfold countCiRound
  refine emits_bind ⟨trivial, fun _ => trivial⟩ fun journal => ?_
  exact ⟨trivial, fun answer => emits_raise answer⟩

section Pulls

variable [Unicode]

theorem advanceOpen_emits (deps : RunnerDeps) (record : RunRecord) (number : ℕ)
    (pr : GhPullRequest) (mergeable : Mergeability) :
    (advanceOpen deps record number pr mergeable).Emits MoveOp := by
  unfold advanceOpen
  split
  · trivial
  · dsimp only
    split
    · trivial
    · trivial
    · unfold advanceFailing
      split
      · exact emits_bind (blockRun_emits _ _ _) fun _ => trivial
      · exact emits_bind (countCiRound_emits _) fun _ => trivial
    · trivial

theorem advanceRun_emits (deps : RunnerDeps) (record : RunRecord) :
    (advanceRun deps record).Emits MoveOp := by
  unfold advanceRun
  split
  · trivial
  · refine emits_bind ⟨trivial, fun answer => emits_raise answer⟩ fun pr => ?_
    split
    · exact emits_bind (finishRun_emits _ _ _) fun _ => trivial
    · split
      · exact emits_bind (finishRun_emits _ _ _) fun _ => trivial
      · refine emits_bind ⟨trivial, fun answer => emits_raise answer⟩ fun mergeable => ?_
        split
        · refine emits_bind (emits_attempt ⟨trivial, fun answer => emits_raise answer⟩)
            fun updated => ?_
          split
          · trivial
          · exact advanceOpen_emits _ _ _ _ _
        · exact advanceOpen_emits _ _ _ _ _

theorem advanceAll_emits (deps : RunnerDeps) (records : List RunRecord) :
    (advanceAll deps records).Emits MoveOp := by
  induction records with
  | nil => trivial
  | cons record rest ih =>
    unfold advanceAll
    exact emits_bind (advanceRun_emits deps record) fun _ => emits_bind ih fun _ => trivial

/-- **The footprint of `advance`.** -/
theorem advance_emits (deps : RunnerDeps) : (advance deps).Emits MoveOp := by
  unfold advance
  refine emits_bind ⟨trivial, fun _ => trivial⟩ fun journal => ?_
  exact emits_bind (advanceAll_emits deps _) fun _ => trivial

end Pulls

end Newsdeck.Runner

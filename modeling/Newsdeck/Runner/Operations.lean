import Newsdeck.Library.Effects
import Newsdeck.Runner.Config
import Newsdeck.Runner.GitHub
import Newsdeck.Runner.Journal
import Newsdeck.Runner.Report

/-!
# What the runner asks of the world

Every call that leaves the runner's own code is one operation: GitHub, git, the installer, the agents,
the verifier, the execution log, the journal file, the clock and the budget.  An operation that may
throw is answered by `Except`, the error being the message the runner reports.
-/

namespace Newsdeck.Runner

open Ecma Loop Effects

structure RunResult where
  code : ℕ
  stdout : Text
  stderr : Text
  deriving DecidableEq, Repr

structure CodingTask where
  issue : ℕ
  title : Text
  body : Text
  worktree : Text
  branch : Text
  review : Option ReviewResult
  verification : Option VerificationOutcome
  feedback : Option Text
  round : ℕ

inductive CodingOutcome where
  | ok (summary : Text)
  | failed (reason detail : Text)

structure VerifyOptions where
  cwd : Text
  risk : RiskLevel
  policy : LoopPolicy
  changedFiles : List Text

structure ReviewTask where
  worktree : Text
  issue : ℕ
  title : Text
  body : Text
  base : Text
  branch : Text
  diff : Text
  changedFiles : List Text

inductive ReviewOutcome where
  | ok (review : ReviewResult)
  | failed (reason : Text)

structure GatheredReviews where
  usable : List ReviewResult
  failures : List Text

/-- What an execution log keeps. -/
inductive Artifact where
  | coded (outcome : CodingOutcome)
  | risk (assessment : RiskAssessment)
  | verification (outcome : VerificationOutcome)
  | reviews (reviews : GatheredReviews)

structure RunnerCommentInput where
  issue : ℕ
  branch : Text
  agent : Text
  phase : Text
  body : Text

inductive BudgetKind where
  | invocations
  | issues
  | runtime
  deriving DecidableEq, Repr

structure BudgetExceeded where
  kind : BudgetKind
  detail : Text
  deriving DecidableEq, Repr

structure BudgetSnapshot where
  invocations : ℕ
  runtimeMs : ℕ

/-- The operations. -/
inductive Op where
  | now
  | createLog (issue : ℕ)
  | logLine (text : Text)
  | logArtifact (name : Text) (value : Artifact)
  | readJournal
  | writeJournal (journal : Journal)
  | issues
  | issue (number : ℕ)
  | addLabels (issue : ℕ) (labels : List Text)
  | removeLabel (issue : ℕ) (label : Text)
  | comment (issue : ℕ) (input : RunnerCommentInput)
  | createPullRequest (input : CreatePullRequestInput)
  | pullRequest (number : ℕ)
  | pullRequestForBranch (branch : Text)
  | enableAutoMerge (number : ℕ)
  | updateBranch (number : ℕ)
  | mergeability (number : ℕ)
  | git (cwd : Text) (args : List Text)
  | install (cwd : Text)
  | readPolicyFile (worktree : Text)
  | recordInvocation
  | implement (task : CodingTask)
  | verify (options : VerifyOptions)
  | review (reviewer : ℕ) (task : ReviewTask)
  | stopping
  | checkBudget
  | recordIssue
  | snapshot
  | sleep (ms : ℕ)

/-- How an operation is answered.  Reading the journal falls back to an empty one and never throws.
Without a budget, its operations are answered as by one that is never exceeded. -/
def Op.Answer : Op → Type
  | now => Text
  | createLog _ => Except Text Unit
  | logLine _ => Except Text Unit
  | logArtifact _ _ => Except Text Unit
  | readJournal => Journal
  | writeJournal _ => Except Text Unit
  | issues => Except Text (List GhIssue)
  | issue _ => Except Text GhIssue
  | addLabels _ _ => Except Text Unit
  | removeLabel _ _ => Except Text Unit
  | comment _ _ => Except Text Unit
  | createPullRequest _ => Except Text ℕ
  | pullRequest _ => Except Text GhPullRequest
  | pullRequestForBranch _ => Except Text (Option GhPullRequest)
  | enableAutoMerge _ => Except Text Unit
  | updateBranch _ => Except Text Unit
  | mergeability _ => Except Text Mergeability
  | git _ _ => Except Text RunResult
  | install _ => Except Text RunResult
  | readPolicyFile _ => Except Text Text
  | recordInvocation => Unit
  | implement _ => Except Text CodingOutcome
  | verify _ => Except Text VerificationOutcome
  | review _ _ => Except Text ReviewOutcome
  | stopping => Bool
  | checkBudget => Option BudgetExceeded
  | recordIssue => Unit
  | snapshot => BudgetSnapshot
  | sleep _ => Unit

/-- A program of the runner. -/
abbrev Action (α : Type) := Prog Op Op.Answer Text α

/-- An operation of the runner with its answer. -/
abbrev RunnerEvent := Event Op Op.Answer

/-- What the runner is set up with.  `resolve` is the `resolve` of `node:path`; the policy is one
`parsePolicy` accepts (`Loop.parsePolicy_reviewers`). -/
structure RunnerDeps where
  config : RunnerConfig
  policy : LoopPolicy
  repository : Text
  remote : Text
  defaultBranch : Text
  resolve : List Text → Text
  codingName : Text
  reviewers : ℕ
  selectionPolicy : Option SelectionPolicy
  policy_reviewers : ∀ risk, 1 ≤ reviewersForRisk policy risk ∧ reviewersForRisk policy risk ≤ 4

/-- `origin/main`. -/
def RunnerDeps.base (deps : RunnerDeps) : Text := deps.remote ++ lit "/" ++ deps.defaultBranch

/-! ### The operations as actions -/

def now : Action Text := .call .now .ret
def createLog (issue : ℕ) : Action Unit := .call (.createLog issue) .raise
def logLine (text : Text) : Action Unit := .call (.logLine text) .raise
def logArtifact (name : Text) (value : Artifact) : Action Unit :=
  .call (.logArtifact name value) .raise
def readJournal : Action Journal := .call .readJournal .ret
def writeJournal (journal : Journal) : Action Unit := .call (.writeJournal journal) .raise
def ghIssues : Action (List GhIssue) := .call .issues .raise
def ghIssue (number : ℕ) : Action GhIssue := .call (.issue number) .raise
def addLabels (issue : ℕ) (labels : List Text) : Action Unit :=
  .call (.addLabels issue labels) .raise
def removeLabel (issue : ℕ) (label : Text) : Action Unit := .call (.removeLabel issue label) .raise
def comment (issue : ℕ) (input : RunnerCommentInput) : Action Unit :=
  .call (.comment issue input) .raise
def createPullRequest (input : CreatePullRequestInput) : Action ℕ :=
  .call (.createPullRequest input) .raise
def pullRequest (number : ℕ) : Action GhPullRequest := .call (.pullRequest number) .raise
def pullRequestForBranch (branch : Text) : Action (Option GhPullRequest) :=
  .call (.pullRequestForBranch branch) .raise
def enableAutoMerge (number : ℕ) : Action Unit := .call (.enableAutoMerge number) .raise
def updateBranch (number : ℕ) : Action Unit := .call (.updateBranch number) .raise
def mergeability (number : ℕ) : Action Mergeability := .call (.mergeability number) .raise
def git (cwd : Text) (args : List Text) : Action RunResult := .call (.git cwd args) .raise
def install (cwd : Text) : Action RunResult := .call (.install cwd) .raise
def readPolicyFile (worktree : Text) : Action Text := .call (.readPolicyFile worktree) .raise
def recordInvocation : Action Unit := .call .recordInvocation .ret
def implement (task : CodingTask) : Action CodingOutcome := .call (.implement task) .raise
def verify (options : VerifyOptions) : Action VerificationOutcome := .call (.verify options) .raise
def review (reviewer : ℕ) (task : ReviewTask) : Action ReviewOutcome :=
  .call (.review reviewer task) .raise
def stopping : Action Bool := .call .stopping .ret
def checkBudget : Action (Option BudgetExceeded) := .call .checkBudget .ret
def recordIssue : Action Unit := .call .recordIssue .ret
def snapshot : Action BudgetSnapshot := .call .snapshot .ret
def sleep (ms : ℕ) : Action Unit := .call (.sleep ms) .ret

end Newsdeck.Runner

import Newsdeck.Loop.MergeGate
import Newsdeck.Loop.Recurrence
import Mathlib.Data.ENat.Basic

/-!
# The loop's state

GitHub is the state store: the loop keeps its state in a sticky pull request comment, as a marker
and a fenced JSON block, and reads it back from there.  `serialiseLoopState` writes it,
`parseLoopState` reads it (anything unreadable is a fresh state), `recordRound` advances it.

The issue number comes out of free text by `Number(...)`, so it can be any double that digits denote
and also infinite: an `Option ℕ∞`.  The member `version`, which is always `1`, is only written and
checked.
-/

namespace Newsdeck.Loop

open Ecma

/-- `LOOP_STATE_MARKER`. -/
def loopStateMarker : Text := lit "<!-- newsdeck-loop-state -->"

structure HistoryEntry where
  atTime : Text
  headSha : Text
  attempt : ℕ
  reviewStatus : ReviewStatus
  decision : GateDecision
  findings : List FindingRecord
  deriving DecidableEq

structure LoopState where
  issue : Option ℕ∞
  reviewAttempts : ℕ
  lastReviewStatus : Option ReviewStatus
  lastDecision : Option GateDecision
  history : List HistoryEntry
  deriving DecidableEq

def initialState (issue : Option ℕ∞) : LoopState where
  issue := issue
  reviewAttempts := 0
  lastReviewStatus := none
  lastDecision := none
  history := []

/-! ### The schema -/

/-- How a decision prints. -/
def gateDecisionText : GateDecision → Text
  | .autoMerge => lit "auto_merge"
  | .humanApprovalRequired => lit "human_approval_required"
  | .changesRequested => lit "changes_requested"
  | .blocked => lit "blocked"
  | .waiting => lit "waiting"

def gateDecisionSchema : Schema GateDecision :=
  Schema.enum [(lit "auto_merge", .autoMerge),
    (lit "human_approval_required", .humanApprovalRequired),
    (lit "changes_requested", .changesRequested), (lit "blocked", .blocked),
    (lit "waiting", .waiting)]

def historyEntrySchema : Schema HistoryEntry := Schema.object fun field => do
  let atTime ← field "at" (Schema.text fun _ => true)
  let headSha ← field "headSha" (textUpTo 64)
  let attempt ← field "attempt" (Schema.nat 0 Schema.maxSafe)
  let reviewStatus ← field "reviewStatus" reviewStatusSchema
  let decision ← field "decision" gateDecisionSchema
  let findings ← field "findings" (Schema.default
    (Schema.maxItems maxRetainedFindings (Schema.array findingRecordSchema)) [])
  some ⟨atTime, headSha, attempt, reviewStatus, decision, findings⟩

/-- `LoopStateSchema`. -/
def loopStateSchema : Schema LoopState := Schema.object fun field => do
  let _ ← field "version" (Schema.nat 1 1)
  let issue ← field "issue" (Schema.nullable (Schema.nat 1 Schema.maxSafe))
  let reviewAttempts ← field "reviewAttempts" (Schema.nat 0 100)
  let lastReviewStatus ← field "lastReviewStatus" (Schema.nullable reviewStatusSchema)
  let lastDecision ← field "lastDecision" (Schema.nullable gateDecisionSchema)
  let history ← field "history" (Schema.maxItems 25 (Schema.array historyEntrySchema))
  some ⟨issue.map Nat.cast, reviewAttempts, lastReviewStatus, lastDecision, history⟩

/-! ### Reading -/

/-- `STATE_BLOCK`. -/
def stateBlock : Regex ℕ :=
  .cat [.str "<!--", .many .space, .str "newsdeck-loop-state", .many .space, .str "-->",
    .lazy .any, .str "```json", .many .space, .str "\n", .group 1 (.lazy .any), .str "\n```"]

/-- Parse and validate the text of the block; anything unreadable is a fresh state. -/
def readBlock (raw : Text) (issue : Option ℕ∞) : LoopState :=
  match Json.parse raw with
  | none => initialState issue
  | some value => (loopStateSchema (some value)).getD (initialState issue)

/-- Read loop state back out of the sticky comment. -/
def parseLoopState (commentBody : Option Text) (issue : Option ℕ∞) : LoopState :=
  match commentBody.bind (stateBlock.capture 1) with
  | none => initialState issue
  | some raw => readBlock raw issue

/-! ### Writing -/

/-- `null` for an absent value. -/
def nullOr {α : Type} (write : α → Json) : Option α → Json
  | none => .null
  | some a => write a

def issueJson : ℕ∞ → Json
  | some n => .num n
  | none => .infinite

def findingRecordJson (r : FindingRecord) : Json :=
  .obj [(lit "severity", .str (severityText r.severity)), (lit "file", nullOr .str r.file),
    (lit "description", .str r.description), (lit "category", .str r.category)]

def historyEntryJson (e : HistoryEntry) : Json :=
  .obj [(lit "at", .str e.atTime), (lit "headSha", .str e.headSha), (lit "attempt", .num e.attempt),
    (lit "reviewStatus", .str (reviewStatusText e.reviewStatus)),
    (lit "decision", .str (gateDecisionText e.decision)),
    (lit "findings", .arr (e.findings.map findingRecordJson))]

/-- The state as the object that is written. -/
def loopStateJson (s : LoopState) : Json :=
  .obj [(lit "version", .num 1), (lit "issue", nullOr issueJson s.issue),
    (lit "reviewAttempts", .num s.reviewAttempts),
    (lit "lastReviewStatus", nullOr (fun r => .str (reviewStatusText r)) s.lastReviewStatus),
    (lit "lastDecision", nullOr (fun d => .str (gateDecisionText d)) s.lastDecision),
    (lit "history", .arr (s.history.map historyEntryJson))]

def serialiseLoopState [Host] (s : LoopState) : Text :=
  loopStateMarker ++ lit "\n\n```json\n" ++ Json.stringify 2 (loopStateJson s) ++ lit "\n```"

/-! ### Advancing -/

structure RecordRoundInput where
  state : LoopState
  headSha : Text
  reviewStatus : ReviewStatus
  decision : GateDecision
  atTime : Text
  findings : List FindingRecord

/-- The entry of a round in the history. -/
def RecordRoundInput.entry (input : RecordRoundInput) : HistoryEntry where
  atTime := input.atTime
  headSha := input.headSha
  attempt := input.state.reviewAttempts
  reviewStatus := input.reviewStatus
  decision := input.decision
  findings := input.findings.take maxRetainedFindings

/-- Advance the loop by one round. -/
def recordRound (input : RecordRoundInput) : LoopState :=
  let consumed := input.decision = .changesRequested
  { input.state with
    reviewAttempts :=
      if consumed then input.state.reviewAttempts + 1 else input.state.reviewAttempts
    lastReviewStatus := some input.reviewStatus
    lastDecision := some input.decision
    history := takeLast 25 (input.state.history ++ [input.entry]) }

@[simp] theorem recordRound_issue (input : RecordRoundInput) :
    (recordRound input).issue = input.state.issue := rfl

@[simp] theorem recordRound_history (input : RecordRoundInput) :
    (recordRound input).history = takeLast 25 (input.state.history ++ [input.entry]) := by
  unfold recordRound
  dsimp only

@[simp] theorem recordRound_reviewAttempts (input : RecordRoundInput) :
    (recordRound input).reviewAttempts =
      input.state.reviewAttempts + if input.decision = .changesRequested then 1 else 0 := by
  unfold recordRound
  dsimp only
  split <;> rfl

end Newsdeck.Loop

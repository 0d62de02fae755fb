import Newsdeck.Loop.StateRoundTrip
import Newsdeck.Runner.Lifecycle

/-!
# The text of the journal

The journal is one JSON file, and its reader validates every bound of the schema.

* `Journal.Fits` — the bounds;
* `journalSchema_json`, `journalSchema_fits` — the schema accepts exactly what fits;
* `readBack_eq_iff` — a journal that is written is read back exactly when it fits.
-/

namespace Newsdeck.Runner

open Ecma Loop

/-! ### The schema -/

def AttemptPhase.text : AttemptPhase → Text
  | .implement => lit "implement"
  | .verify => lit "verify"
  | .review => lit "review"
  | .fix => lit "fix"
  | .publish => lit "publish"

def AttemptOutcome.text : AttemptOutcome → Text
  | .ok => lit "ok"
  | .failed => lit "failed"
  | .skipped => lit "skipped"

def RunStatus.text : RunStatus → Text
  | .inProgress => lit "in-progress"
  | .awaitingReview => lit "awaiting-review"
  | .blocked => lit "blocked"
  | .done => lit "done"

def attemptPhaseSchema : Schema AttemptPhase :=
  Schema.enum [(lit "implement", .implement), (lit "verify", .verify), (lit "review", .review),
    (lit "fix", .fix), (lit "publish", .publish)]

def attemptOutcomeSchema : Schema AttemptOutcome :=
  Schema.enum [(lit "ok", .ok), (lit "failed", .failed), (lit "skipped", .skipped)]

def runStatusSchema : Schema RunStatus :=
  Schema.enum [(lit "in-progress", .inProgress), (lit "awaiting-review", .awaitingReview),
    (lit "blocked", .blocked), (lit "done", .done)]

def attemptSchema : Schema Attempt := Schema.object fun field => do
  let at_ ← field "at" (Schema.text fun _ => true)
  let phase ← field "phase" attemptPhaseSchema
  let outcome ← field "outcome" attemptOutcomeSchema
  let detail ← field "detail" (textUpTo 2000)
  some ⟨at_, phase, outcome, detail⟩

def runRecordSchema : Schema RunRecord := Schema.object fun field => do
  let issue ← field "issue" (Schema.nat 1 Schema.maxSafe)
  let branch ← field "branch" (textUpTo 255)
  let worktree ← field "worktree" (textUpTo 4096)
  let startedAt ← field "startedAt" (Schema.text fun _ => true)
  let updatedAt ← field "updatedAt" (Schema.text fun _ => true)
  let status ← field "status" runStatusSchema
  let fixRounds ← field "fixRounds" (Schema.default (Schema.nat 0 100) 0)
  let ciRounds ← field "ciRounds" (Schema.default (Schema.nat 0 100) 0)
  let conflictRounds ← field "conflictRounds" (Schema.default (Schema.nat 0 100) 0)
  let pullRequest ← field "pullRequest"
    (Schema.default (Schema.nullable (Schema.nat 1 Schema.maxSafe)) none)
  let risk ← field "risk" (Schema.default (Schema.nullable riskLevelSchema) none)
  let attempts ← field "attempts"
    (Schema.default (Schema.maxItems 100 (Schema.array attemptSchema)) [])
  some ⟨issue, branch, worktree, startedAt, updatedAt, status, fixRounds, ciRounds, conflictRounds,
    pullRequest, risk, attempts⟩

def journalSchema : Schema Journal := Schema.object fun field => do
  let _ ← field "version" (Schema.nat 1 1)
  let runs ← field "runs" (Schema.default (Schema.maxItems 200 (Schema.array runRecordSchema)) [])
  some ⟨runs⟩

/-! ### The file -/

def attemptJson (attempt : Attempt) : Json :=
  .obj [(lit "at", .str attempt.at_), (lit "phase", .str attempt.phase.text),
    (lit "outcome", .str attempt.outcome.text), (lit "detail", .str attempt.detail)]

def runRecordJson (run : RunRecord) : Json :=
  .obj [(lit "issue", .num run.issue), (lit "branch", .str run.branch),
    (lit "worktree", .str run.worktree), (lit "startedAt", .str run.startedAt),
    (lit "updatedAt", .str run.updatedAt), (lit "status", .str run.status.text),
    (lit "fixRounds", .num run.fixRounds), (lit "ciRounds", .num run.ciRounds),
    (lit "conflictRounds", .num run.conflictRounds),
    (lit "pullRequest", nullOr (fun number : ℕ => .num number) run.pullRequest),
    (lit "risk", nullOr (fun risk => .str (riskText risk)) run.risk),
    (lit "attempts", .arr (run.attempts.map attemptJson))]

def journalJson (journal : Journal) : Json :=
  .obj [(lit "version", .num 1), (lit "runs", .arr (journal.runs.map runRecordJson))]

/-- What `writeJournal` writes. -/
def journalText [Host] (journal : Journal) : Text :=
  Json.stringify 2 (journalJson journal) ++ lit "\n"

/-- What `readJournal` makes of a text. -/
def parseJournal (text : Text) : Journal :=
  ((Json.parse text).bind fun value => journalSchema (some value)).getD emptyJournal

/-- What is read of a journal that was written. -/
def readBack [Host] (journal : Journal) : Journal := parseJournal (journalText journal)

/-! ### Journals the reader accepts -/

/-- The bounds the schema of a record checks. -/
structure RunRecord.Fits (run : RunRecord) : Prop where
  issue : 1 ≤ run.issue ∧ run.issue ≤ Schema.maxSafe
  branch : run.branch.length ≤ 255
  worktree : run.worktree.length ≤ 4096
  fixRounds : run.fixRounds ≤ 100
  ciRounds : run.ciRounds ≤ 100
  conflictRounds : run.conflictRounds ≤ 100
  pullRequest : ∀ number, run.pullRequest = some number → 1 ≤ number ∧ number ≤ Schema.maxSafe
  count : run.attempts.length ≤ 100
  attempts : ∀ attempt ∈ run.attempts, attempt.Fits

structure Journal.Fits (journal : Journal) : Prop where
  count : journal.runs.length ≤ 200
  runs : ∀ run ∈ journal.runs, run.Fits

theorem attemptPhaseSchema_text (phase : AttemptPhase) :
    attemptPhaseSchema (some (.str phase.text)) = some phase := by
  cases phase <;> rfl

theorem attemptOutcomeSchema_text (outcome : AttemptOutcome) :
    attemptOutcomeSchema (some (.str outcome.text)) = some outcome := by
  cases outcome <;> rfl

theorem runStatusSchema_text (status : RunStatus) :
    runStatusSchema (some (.str status.text)) = some status := by
  cases status <;> rfl

theorem riskLevelSchema_text (risk : RiskLevel) :
    riskLevelSchema (some (.str (riskText risk))) = some risk := by
  cases risk <;> rfl

theorem attemptSchema_json {attempt : Attempt} (h : attempt.Fits) :
    attemptSchema (some (attemptJson attempt)) = some attempt := by
  have hat : Schema.text (fun _ => true) (some (.str attempt.at_)) = some attempt.at_ := rfl
  have hdetail : textUpTo 2000 (some (.str attempt.detail)) = some attempt.detail :=
    Schema.text_str (by simpa [Attempt.Fits] using h)
  simp [attemptSchema, attemptJson, attemptPhaseSchema_text, attemptOutcomeSchema_text, hat,
    hdetail]

/-- A bounded counter reads back. -/
theorem counterSchema_json {n : ℕ} (h : n ≤ 100) :
    Schema.default (Schema.nat 0 100) 0 (some (.num n)) = some n :=
  Schema.nat_natCast (Nat.zero_le _) h (h.trans (by decide))

theorem runRecordSchema_json {run : RunRecord} (h : run.Fits) :
    runRecordSchema (some (runRecordJson run)) = some run := by
  have hissue : Schema.nat 1 Schema.maxSafe (some (.num run.issue)) = some run.issue :=
    Schema.nat_natCast h.issue.1 h.issue.2 h.issue.2
  have hbranch : textUpTo 255 (some (.str run.branch)) = some run.branch :=
    Schema.text_str (by simpa using h.branch)
  have hworktree : textUpTo 4096 (some (.str run.worktree)) = some run.worktree :=
    Schema.text_str (by simpa using h.worktree)
  have hstarted : Schema.text (fun _ => true) (some (.str run.startedAt)) =
    some run.startedAt := rfl
  have hupdated : Schema.text (fun _ => true) (some (.str run.updatedAt)) =
    some run.updatedAt := rfl
  have hpull : Schema.default (Schema.nullable (Schema.nat 1 Schema.maxSafe)) none
      (some (nullOr (fun number : ℕ => .num number) run.pullRequest)) = some run.pullRequest :=
    nullable_nullOr _ (by simp) fun number hnumber =>
      Schema.nat_natCast (h.pullRequest number hnumber).1 (h.pullRequest number hnumber).2
        (h.pullRequest number hnumber).2
  have hrisk : Schema.default (Schema.nullable riskLevelSchema) none
      (some (nullOr (fun risk => .str (riskText risk)) run.risk)) = some run.risk :=
    nullable_nullOr _ (by simp) fun risk _ => riskLevelSchema_text risk
  have hattempts : Schema.default (Schema.maxItems 100 (Schema.array attemptSchema)) []
      (some (.arr (run.attempts.map attemptJson))) = some run.attempts :=
    Schema.maxItems_of_le (Schema.array_map fun a ha =>
      attemptSchema_json (h.attempts a ha)) h.count
  simp [runRecordSchema, runRecordJson, runStatusSchema_text, hissue, hbranch, hworktree, hstarted,
    hupdated, counterSchema_json h.fixRounds, counterSchema_json h.ciRounds,
    counterSchema_json h.conflictRounds, hpull, hrisk, hattempts]

/-- **The schema accepts what fits**, as it was written. -/
theorem journalSchema_json {journal : Journal} (h : journal.Fits) :
    journalSchema (some (journalJson journal)) = some journal := by
  have hversion : Schema.nat 1 1 (some (.num 1)) = some 1 :=
    Schema.nat_natCast (n := 1) le_rfl le_rfl (by decide)
  have hruns : Schema.default (Schema.maxItems 200 (Schema.array runRecordSchema)) []
      (some (.arr (journal.runs.map runRecordJson))) = some journal.runs :=
    Schema.maxItems_of_le (Schema.array_map fun r hr => runRecordSchema_json (h.runs r hr)) h.count
  simp [journalSchema, journalJson, hversion, hruns]

/-! ### What the reader accepts fits -/

/-- What an array with a default and a bound reads as. -/
theorem boundedArray_eq_some {α : Type} {s : Schema α} {bound : ℕ} {v : Option Json} {as : List α}
    (h : Schema.default (Schema.maxItems bound (Schema.array s)) [] v = some as) :
    as.length ≤ bound ∧ ∀ a ∈ as, ∃ w, s w = some a := by
  rcases Schema.default_eq_some h with rfl | h
  · exact ⟨Nat.zero_le _, by simp⟩
  · obtain ⟨harray, hcount⟩ := Schema.maxItems_eq_some h
    exact ⟨hcount, Schema.array_eq_some harray⟩

theorem counterSchema_eq_some {v : Option Json} {n : ℕ}
    (h : Schema.default (Schema.nat 0 100) 0 v = some n) : n ≤ 100 := by
  rcases Schema.default_eq_some h with rfl | h
  · exact Nat.zero_le _
  · exact (Schema.nat_eq_some h).2

theorem attemptSchema_fits {v : Option Json} {attempt : Attempt}
    (h : attemptSchema v = some attempt) :
    attempt.Fits := by
  obtain ⟨members, -, hbuild⟩ := Schema.object_eq_some h
  simp only [Option.bind_eq_bind, Option.bind_eq_some_iff, Option.some.injEq] at hbuild
  obtain ⟨_, -, _, -, _, -, detail, hdetail, rfl⟩ := hbuild
  exact textUpTo_eq_some hdetail

theorem runRecordSchema_fits {v : Option Json} {run : RunRecord}
    (h : runRecordSchema v = some run) :
    run.Fits := by
  obtain ⟨members, -, hbuild⟩ := Schema.object_eq_some h
  simp only [Option.bind_eq_bind, Option.bind_eq_some_iff, Option.some.injEq] at hbuild
  obtain ⟨_, hissue, _, hbranch, _, hworktree, _, -, _, -, _, -, _, hfix, _, hci, _, hconflict,
    pullRequest, hpull, _, -, _, hattempts, rfl⟩ := hbuild
  obtain ⟨hcount, hfits⟩ := boundedArray_eq_some hattempts
  refine ⟨Schema.nat_eq_some hissue, textUpTo_eq_some hbranch, textUpTo_eq_some hworktree,
    counterSchema_eq_some hfix, counterSchema_eq_some hci, counterSchema_eq_some hconflict,
    fun number hnumber => ?_, hcount, fun attempt hattempt => ?_⟩
  · obtain rfl : pullRequest = some number := hnumber
    rcases Schema.default_eq_some hpull with hnone | hpull
    · cases hnone
    · exact Schema.nat_eq_some (Schema.nullable_eq_some hpull)
  · obtain ⟨w, hw⟩ := hfits attempt hattempt
    exact attemptSchema_fits hw

theorem journalSchema_fits {v : Option Json} {journal : Journal}
    (h : journalSchema v = some journal) :
    journal.Fits := by
  obtain ⟨members, -, hbuild⟩ := Schema.object_eq_some h
  simp only [Option.bind_eq_bind, Option.bind_eq_some_iff, Option.some.injEq] at hbuild
  obtain ⟨_, -, _, hruns, rfl⟩ := hbuild
  obtain ⟨hcount, hfits⟩ := boundedArray_eq_some hruns
  refine ⟨hcount, fun run hrun => ?_⟩
  obtain ⟨w, hw⟩ := hfits run hrun
  exact runRecordSchema_fits hw

theorem parseJournal_fits (text : Text) : (parseJournal text).Fits := by
  unfold parseJournal
  cases hparse : (Json.parse text).bind fun value => journalSchema (some value) with
  | none => exact ⟨Nat.zero_le _, by simp [emptyJournal]⟩
  | some journal =>
    obtain ⟨value, -, hvalue⟩ := Option.bind_eq_some_iff.mp hparse
    exact journalSchema_fits hvalue

/-! ### The round trip -/

theorem plain_attemptJson (attempt : Attempt) : Json.Plain (attemptJson attempt) :=
  ⟨trivial, trivial, trivial, trivial, trivial⟩

theorem plain_runRecordJson {run : RunRecord} (h : run.Fits) : Json.Plain (runRecordJson run) := by
  have hsmall : ∀ {n : ℕ}, n ≤ 100 → n ≤ Schema.maxSafe := fun hn => hn.trans (by decide)
  exact ⟨plain_natCast h.issue.2, trivial, trivial, trivial, trivial, trivial,
    plain_natCast (hsmall h.fixRounds), plain_natCast (hsmall h.ciRounds),
    plain_natCast (hsmall h.conflictRounds),
    plain_nullOr fun number hnumber => plain_natCast (h.pullRequest number hnumber).2,
    plain_nullOr fun _ _ => trivial, plainItems_map fun a _ => plain_attemptJson a, trivial⟩

theorem plain_journalJson {journal : Journal} (h : journal.Fits) :
    Json.Plain (journalJson journal) :=
  ⟨plain_natCast (n := 1) (by decide),
    plainItems_map fun run hrun => plain_runRecordJson (h.runs run hrun), trivial⟩

/-- **The round trip.**  A journal that is written is read back exactly when it fits. -/
theorem readBack_eq_iff [Host] (journal : Journal) : readBack journal = journal ↔ journal.Fits := by
  constructor
  · intro h
    rw [← h]
    exact parseJournal_fits _
  · intro h
    have hparse : Json.parse (journalText journal) = some (journalJson journal) :=
      Json.parse_stringify_line 2 _ (plain_journalJson h)
    rw [readBack, parseJournal, hparse]
    simp [journalSchema_json h]

end Newsdeck.Runner

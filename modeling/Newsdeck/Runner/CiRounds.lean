import Newsdeck.Runner.Rehearsal
import Newsdeck.Runner.Serial

/-!
# Rounds of failing checks, and the fix rounds they announce

`advance` counts a round when it finds the checks of a pull request failing, and says that the next
cycle will start a fix round.  The session starts no fix round while anything is in flight, so the
next poll that finds the checks failing counts again, or gives the issue up.

* `CiWatch` — the journal, the rounds a fix round is owed for, and the fix rounds that were made;
* `Spared` — what must not happen to an issue that is owed a fix round, or counts rounds;
* `Covered` — every round on record was followed by a fix round, or is owed one;
* `calm_keeps`, `calm_wrote` — what an event may do to it;
* `advanceRun_calm`, `workJob_calm` — the two programs that write the journal;
* `ciRounds_earned` — sessions whose events are all spared.
-/

namespace Newsdeck.Runner

open Ecma Loop Effects Effects.Prog

/-! ### Rounds and fix rounds -/

/-- The issues whose record has a higher `ciRounds` after than before. -/
def countedUp (before after : Journal) : List ℕ :=
  (after.runs.filter fun run => before.runs.any fun old =>
    old.issue = run.issue && decide (old.ciRounds < run.ciRounds)).map RunRecord.issue

/-- The issues that were in flight before and are blocked after. -/
def blockedUp (before after : Journal) : List ℕ :=
  (after.runs.filter fun run => run.status = .blocked && before.runs.any fun old =>
    old.issue = run.issue && old.isInFlight).map RunRecord.issue

/-- The issue whose failing checks the coding agent is asked to fix. -/
def ciFixOf : RunnerEvent → Option ℕ
  | ⟨.implement task, _⟩ =>
      if (lit "### GitHub CI is failing").isPrefixOf (task.feedback.getD []) then some task.issue
      else none
  | _ => none

/-- `resumable` hands the agent this feedback when the checks fail. -/
theorem checksFeedback_prefix (failing : List Text) :
    (lit "### GitHub CI is failing").isPrefixOf (checksFeedback failing) = true := by
  rw [List.isPrefixOf_iff_prefix]
  exact ⟨_, rfl⟩

/-- The issue is given up because of its checks. -/
def saysGivenUp (body : Text) : Bool := (lit "CI is still failing after ").isPrefixOf body

/-- It is given up after so many rounds. -/
def saysRounds (rounds : ℕ) (body : Text) : Bool :=
  (lit "CI is still failing after " ++ decimal rounds ++ lit " round(s): ").isPrefixOf body

/-- The pull request of an issue's record. -/
def pullOf (journal : Journal) (issue : ℕ) : Option ℕ :=
  (findRun journal issue).bind RunRecord.pullRequest

/-- The fix round an event is, by issue and pull request. -/
def fixRound (journal : Journal) (event : RunnerEvent) : Option (ℕ × Option ℕ) :=
  (ciFixOf event).map fun issue => (issue, pullOf journal issue)

structure CiWatch where
  seen : Watched
  /-- The cycle has come to taking new work, after `advance`. -/
  taking : Bool
  /-- The pull request GitHub showed last. -/
  shown : Option GhPullRequest
  /-- The issues a round was counted for that no fix round has followed. -/
  owed : List ℕ
  /-- The fix rounds, by issue and pull request. -/
  fixes : List (ℕ × Option ℕ)
  /-- A round was counted for an issue that was still owed a fix round, or such an issue was
  blocked, or `advance` gave one up after more rounds than fix rounds account for. -/
  violated : Bool

def newCiWatch : CiWatch := ⟨newWatched, false, none, [], [], false⟩

namespace CiWatch

/-- The comment gives the issue up after `k` rounds, and fewer than `k - 1` fix rounds were made for
its pull request. -/
def unearned (w : CiWatch) : RunnerEvent → Bool
  | ⟨.comment issue input, _⟩ => saysGivenUp input.body &&
      !(List.range (w.fixes.count (issue, pullOf w.seen.journal issue) + 2)).any fun rounds =>
        saysRounds rounds input.body
  | _ => false

def takes (w : CiWatch) : RunnerEvent → Bool
  | ⟨.checkBudget, _⟩ => true
  | ⟨.stopping, _⟩ => false
  | _ => w.taking

def shows (w : CiWatch) : RunnerEvent → Option GhPullRequest
  | ⟨.pullRequest _, .ok pr⟩ => some pr
  | _ => w.shown

def moved (w : CiWatch) (event : RunnerEvent) (after : Watched) : CiWatch :=
  let counted := countedUp w.seen.journal after.journal
  let blocked := blockedUp w.seen.journal after.journal
  { seen := after
    taking := w.takes event
    shown := w.shows event
    owed := (w.owed.filter fun issue => ciFixOf event ≠ some issue) ++ counted
    fixes := w.fixes ++ (fixRound w.seen.journal event).toList
    violated := w.violated || (counted ++ blocked).any (fun issue => issue ∈ w.owed) ||
      (!w.taking && w.unearned event) }

/-- A session begins: what went before is known, and held against nobody. -/
def begun (w : CiWatch) : CiWatch := { w with taking := false, shown := none, violated := false }

end CiWatch

/-- The world of the journal, with the rounds and the fix rounds written down. -/
def ciStep (w : CiWatch) (event : RunnerEvent) (w' : CiWatch) : Prop :=
  watch w.seen event w'.seen ∧ w' = w.moved event w'.seen

/-! ### The condition -/

/-- The poll goes on to the checks of the pull request. -/
def looksAtChecks : RunnerEvent → Bool
  | ⟨.mergeability _, .ok mergeable⟩ => mergeable ≠ .conflicted && mergeable ≠ .behind
  | ⟨.updateBranch _, .error _⟩ => true
  | _ => false

/-- The issue is labelled as one that is being worked on. -/
def takesUp : RunnerEvent → Option ℕ
  | ⟨.addLabels issue labels, _⟩ => if labels = [inProgressLabel] then some issue else none
  | _ => none

/-- A record that counts rounds is given another pull request. -/
def movesPull (before : Journal) : RunnerEvent → Bool
  | ⟨.writeJournal after, _⟩ => after.runs.any fun run => before.runs.any fun old =>
      old.issue = run.issue && old.ciRounds ≠ 0 && run.pullRequest ≠ old.pullRequest
  | _ => false

section Condition

variable [Unicode]

/-- A poll finds the checks of an open pull request failing. -/
def FoundFailing (w : CiWatch) (event : RunnerEvent) : Prop :=
  looksAtChecks event = true ∧ ∃ pr ∈ w.shown, pr.isSettled = false ∧
    (summariseChecks pr).1 = .failing

instance (w : CiWatch) (event : RunnerEvent) : Decidable (FoundFailing w event) := by
  unfold FoundFailing
  infer_instance

/-- While a fix round is owed, no poll finds the checks of the issue failing, and the issue is not
taken up anew; and rounds are not carried over to another pull request. -/
structure Spared (w : CiWatch) (event : RunnerEvent) : Prop where
  polled : FoundFailing w event → ∀ record ∈ inFlight w.seen.journal, record.issue ∉ w.owed
  taken : ∀ issue ∈ takesUp event, issue ∉ w.owed
  kept : movesPull w.seen.journal event = false

instance (w : CiWatch) (event : RunnerEvent) : Decidable (Spared w event) :=
  decidable_of_iff
    ((FoundFailing w event → ∀ record ∈ inFlight w.seen.journal, record.issue ∉ w.owed) ∧
      (∀ issue ∈ takesUp event, issue ∉ w.owed) ∧ movesPull w.seen.journal event = false)
    ⟨fun ⟨polled, taken, kept⟩ => ⟨polled, taken, kept⟩, fun h => ⟨h.polled, h.taken, h.kept⟩⟩

def sparedStep (w : CiWatch) (event : RunnerEvent) (w' : CiWatch) : Prop :=
  ciStep w event w' ∧ Spared w event

end Condition

/-! ### The invariant -/

/-- As many rounds as there were fix rounds for the pull request, and one that may be owed. -/
def CiWatch.allowed (w : CiWatch) (run : RunRecord) : ℕ :=
  w.fixes.count (run.issue, run.pullRequest) + if run.issue ∈ w.owed then 1 else 0

/-- No record counts more rounds than that. -/
def Covered (w : CiWatch) : Prop := ∀ run ∈ w.seen.journal.runs, run.ciRounds ≤ w.allowed run

instance (w : CiWatch) : Decidable (Covered w) := by
  unfold Covered
  infer_instance

/-- One record for each issue, only issue `n` in flight, every round covered, and nothing
violated. -/
structure Calm (n : ℕ) (w : CiWatch) : Prop where
  only : Only n w.seen
  covered : Covered w
  sound : w.violated = false

/-- The operation neither writes the journal nor comments. -/
def Plain : Op → Prop
  | .writeJournal _ => False
  | .comment _ _ => False
  | _ => True

section Step

variable {n : ℕ} {w w' : CiWatch} {op : Op} {answer : op.Answer} {record run : RunRecord}
  {before after : Journal} {issue : ℕ}

theorem mem_countedUp :
    issue ∈ countedUp before after ↔ ∃ run ∈ after.runs, (∃ old ∈ before.runs,
      old.issue = run.issue ∧ old.ciRounds < run.ciRounds) ∧ run.issue = issue := by
  unfold countedUp
  simp only [List.mem_map, List.mem_filter, List.any_eq_true, Bool.and_eq_true, decide_eq_true_eq,
    and_assoc]

theorem mem_blockedUp :
    issue ∈ blockedUp before after ↔ ∃ run ∈ after.runs, (run.status = .blocked ∧
      ∃ old ∈ before.runs, old.issue = run.issue ∧ old.isInFlight = true) ∧ run.issue = issue := by
  unfold blockedUp
  simp only [List.mem_map, List.mem_filter, List.any_eq_true, Bool.and_eq_true, decide_eq_true_eq,
    and_assoc]

theorem eq_of_issue {journal : Journal} (h : (journal.runs.map RunRecord.issue).Nodup)
    {run run' : RunRecord} (hrun : run ∈ journal.runs) (hrun' : run' ∈ journal.runs)
    (hissue : run.issue = run'.issue) : run = run' :=
  List.inj_on_of_nodup_map h hrun hrun' hissue

/-- The record of an issue that may be written, or may not be. -/
theorem run_wrote (hjournal : after = upsertRun before record ∨ after = before)
    (hrun : run ∈ after.runs) : run = record ∨ run ∈ before.runs := by
  rcases hjournal with rfl | rfl
  · exact (mem_upsertRun hrun).imp_right And.left
  · exact .inr hrun

/-- A write counts a round only for the record it writes. -/
theorem counted_wrote (h : (before.runs.map RunRecord.issue).Nodup)
    (hjournal : after = upsertRun before record ∨ after = before)
    (hcounted : issue ∈ countedUp before after) : issue = record.issue ∧
      ∃ old ∈ before.runs, old.issue = record.issue ∧ old.ciRounds < record.ciRounds := by
  obtain ⟨run, hrun, ⟨old, hold, hsame, hlt⟩, rfl⟩ := mem_countedUp.mp hcounted
  rcases run_wrote hjournal hrun with rfl | hrun
  · exact ⟨rfl, old, hold, hsame, hlt⟩
  · rw [eq_of_issue h hold hrun hsame] at hlt
    exact absurd hlt (Nat.lt_irrefl _)

theorem blocked_wrote (h : (before.runs.map RunRecord.issue).Nodup)
    (hjournal : after = upsertRun before record ∨ after = before)
    (hblocked : issue ∈ blockedUp before after) :
    issue = record.issue ∧ record.status = .blocked := by
  obtain ⟨run, hrun, ⟨hstatus, old, hold, hsame, hflight⟩, rfl⟩ := mem_blockedUp.mp hblocked
  rcases run_wrote hjournal hrun with rfl | hrun
  · exact ⟨rfl, hstatus⟩
  · rw [eq_of_issue h hold hrun hsame] at hflight
    simp [RunRecord.isInFlight, hstatus] at hflight

/-- Nothing is counted or blocked while the journal stays as it is. -/
theorem countedUp_self (h : (before.runs.map RunRecord.issue).Nodup) :
    countedUp before before = [] := by
  rw [List.eq_nil_iff_forall_not_mem]
  intro issue hissue
  obtain ⟨run, hrun, ⟨old, hold, hsame, hlt⟩, -⟩ := mem_countedUp.mp hissue
  rw [eq_of_issue h hold hrun hsame] at hlt
  exact Nat.lt_irrefl _ hlt

theorem blockedUp_self (h : (before.runs.map RunRecord.issue).Nodup) :
    blockedUp before before = [] := by
  rw [List.eq_nil_iff_forall_not_mem]
  intro issue hissue
  obtain ⟨run, hrun, ⟨hblocked, old, hold, hsame, hflight⟩, -⟩ := mem_blockedUp.mp hissue
  rw [eq_of_issue h hold hrun hsame] at hflight
  simp [RunRecord.isInFlight, hblocked] at hflight

theorem pullOf_of_mem (h : (before.runs.map RunRecord.issue).Nodup) (hrun : run ∈ before.runs) :
    pullOf before run.issue = run.pullRequest := by
  unfold pullOf
  cases hfind : findRun before run.issue with
  | none => exact absurd rfl (findRun_eq_none.mp hfind run hrun)
  | some found =>
    obtain ⟨hfound, hissue⟩ := findRun_mem hfind
    rw [eq_of_issue h hfound hrun hissue]
    rfl

/-- What a record may count grows: a fix round that is no longer owed was made. -/
theorem allowed_moved {event : RunnerEvent} {after : Watched}
    (hpull : ciFixOf event = some run.issue → pullOf w.seen.journal run.issue = run.pullRequest) :
    w.allowed run ≤ (w.moved event after).allowed run := by
  unfold CiWatch.allowed
  show _ ≤ (w.fixes ++ (fixRound w.seen.journal event).toList).count _ + _
  rw [List.count_append]
  by_cases hfix : ciFixOf event = some run.issue
  · have hmade : (fixRound w.seen.journal event).toList = [(run.issue, run.pullRequest)] := by
      rw [fixRound, hfix, Option.map_some, hpull hfix]
      rfl
    rw [hmade, List.count_singleton_self]
    have hone : (if run.issue ∈ w.owed then 1 else 0) ≤ 1 := by split <;> simp
    omega
  · have howed : run.issue ∈ w.owed → run.issue ∈ (w.moved event after).owed := by
      intro hin
      exact List.mem_append_left _ (List.mem_filter.mpr ⟨hin, by simpa using hfix⟩)
    have hle : (if run.issue ∈ w.owed then 1 else 0) ≤
        if run.issue ∈ (w.moved event after).owed then 1 else 0 := by
      by_cases hin : run.issue ∈ w.owed
      · rw [if_pos hin, if_pos (howed hin)]
      · rw [if_neg hin]
        exact Nat.zero_le _
    omega

/-- A fix round becomes owed only where a round is counted. -/
theorem owed_moved {event : RunnerEvent} {after : Watched}
    (h : issue ∈ (w.moved event after).owed) :
    issue ∈ w.owed ∨ issue ∈ countedUp w.seen.journal after.journal :=
  (List.mem_append.mp h).imp_left fun hold => (List.mem_filter.mp hold).1

/-- An event that leaves the journal alone, and gives nothing up that was not earned. -/
theorem calm_keeps (h : Calm n w) (hop : KeepsJournal op)
    (hsaid : w.taking = true ∨ w.unearned ⟨op, answer⟩ = false) (hstep : ciStep w ⟨op, answer⟩ w') :
    w'.seen = w.seen ∧ (n ∈ w'.owed → n ∈ w.owed) ∧ Calm n w' := by
  obtain ⟨hwatch, hmoved⟩ := hstep
  have hseen := watch_keeps hop hwatch
  have hcounted : countedUp w.seen.journal w'.seen.journal = [] := by
    rw [hseen, countedUp_self h.only.nodup]
  have hblocked : blockedUp w.seen.journal w'.seen.journal = [] := by
    rw [hseen, blockedUp_self h.only.nodup]
  refine ⟨hseen, fun howed => ?_, by rw [hseen]; exact h.only, fun run hrun => ?_, ?_⟩
  · rw [hmoved] at howed
    rcases owed_moved howed with hold | hnew
    · exact hold
    · rw [hcounted] at hnew
      exact absurd hnew List.not_mem_nil
  · rw [hseen] at hrun
    rw [hmoved]
    exact (h.covered run hrun).trans (allowed_moved fun _ => pullOf_of_mem h.only.nodup hrun)
  · rw [hmoved]
    show (w.violated || _ || (!w.taking && w.unearned ⟨op, answer⟩)) = false
    rw [h.sound, hcounted, hblocked]
    rcases hsaid with htaking | hsaid
    · rw [htaking]
      rfl
    · rw [hsaid, Bool.and_false]
      rfl

theorem calm_plain (h : Calm n w) (hop : Plain op) (hstep : ciStep w ⟨op, answer⟩ w') :
    w'.seen = w.seen ∧ (n ∈ w'.owed → n ∈ w.owed) ∧ Calm n w' := by
  refine calm_keeps h ?_ (.inr ?_) hstep
  · rintro journal rfl
    exact hop
  · cases op with
    | comment issue input => exact hop.elim
    | _ => rfl

/-- What may be written: no rounds, or those of a record with the same pull request, and one more
when nothing is owed. -/
def Counts (n : ℕ) (w : CiWatch) (record : RunRecord) : Prop :=
  record.ciRounds = 0 ∨ ∃ old ∈ w.seen.journal.runs, old.issue = n ∧
    old.pullRequest = record.pullRequest ∧
      (record.ciRounds = old.ciRounds ∨ n ∉ w.owed ∧ record.ciRounds = old.ciRounds + 1)

theorem journal_wrote {answer : Op.Answer (.writeJournal after)}
    (hstep : ciStep w ⟨.writeJournal after, answer⟩ w') :
    w'.seen.journal = after ∨ w'.seen.journal = w.seen.journal := by
  rcases hstep.1.1 with hreads | ⟨-, hsame⟩
  · exact .inl hreads
  · exact .inr hsame

/-- A write that replaces the record of issue `n`. -/
theorem calm_wrote {answer : Op.Answer (.writeJournal (upsertRun w.seen.journal record))}
    (h : Calm n w) (hissue : record.issue = n) (hblocked : record.status = .blocked → n ∉ w.owed)
    (hcounts : Counts n w record)
    (hstep : ciStep w ⟨.writeJournal (upsertRun w.seen.journal record), answer⟩ w') :
      Calm n w' := by
  have hjournal := journal_wrote hstep
  obtain ⟨hwatch, hmoved⟩ := hstep
  have honce := h.only.nodup
  refine ⟨h.only.wrote hissue hwatch, fun run hrun => ?_, ?_⟩
  · have hgrown : w.allowed run ≤ w'.allowed run := by
      rw [hmoved]
      exact allowed_moved fun hfix => absurd hfix (by simp [ciFixOf])
    rcases run_wrote hjournal hrun with rfl | hmem
    · rcases hcounts with hzero | ⟨old, hold, hsame, hpull, hcounts⟩
      · rw [hzero]
        exact Nat.zero_le _
      · have hallowed : w.allowed old = w.allowed run := by
          unfold CiWatch.allowed
          rw [hpull, hsame.trans hissue.symm]
        have hcovered := h.covered old hold
        rw [hallowed] at hcovered
        rcases hcounts with hkept | ⟨hfree, hmore⟩
        · rw [hkept]
          exact hcovered.trans hgrown
        · -- the round that is counted is owed a fix round from now on
          have hnew : run.issue ∈ w'.owed := by
            rw [hmoved]
            refine List.mem_append_right _ (mem_countedUp.mpr ⟨run, hrun, ⟨old, hold, ?_, ?_⟩, rfl⟩)
            · exact hsame.trans hissue.symm
            · omega
          have hsame : w'.fixes = w.fixes := by
            rw [hmoved]
            exact List.append_nil _
          rw [← hissue] at hfree
          unfold CiWatch.allowed at hcovered ⊢
          rw [if_neg hfree] at hcovered
          rw [hsame, if_pos hnew]
          omega
    · exact (h.covered run hmem).trans hgrown
  · have hnone : ∀ issue ∈ countedUp w.seen.journal w'.seen.journal ++
        blockedUp w.seen.journal w'.seen.journal, issue ∉ w.owed := by
      intro issue hmem hin
      rcases List.mem_append.mp hmem with hmem | hmem
      · obtain ⟨rfl, old, hold, hsame, hlt⟩ := counted_wrote honce hjournal hmem
        rw [hissue] at hin hsame
        rcases hcounts with hzero | ⟨own, hown, hnumber, -, hkept | ⟨hfree, -⟩⟩
        · omega
        · rw [hkept, eq_of_issue honce hown hold (hnumber.trans hsame.symm)] at hlt
          exact Nat.lt_irrefl _ hlt
        · exact hfree hin
      · obtain ⟨rfl, hstatus⟩ := blocked_wrote honce hjournal hmem
        rw [hissue] at hin
        exact hblocked hstatus hin
    rw [hmoved]
    show (w.violated || List.any _ _ || (!w.taking && false)) = false
    rw [h.sound, Bool.and_false, Bool.or_false, Bool.false_or, List.any_eq_false]
    intro issue hmem
    simpa using hnone issue hmem

/-- A fix round becomes owed to issue `n` only by a write that raises its rounds. -/
theorem owed_wrote {answer : Op.Answer (.writeJournal (upsertRun w.seen.journal record))}
    (h : Calm n w) (hissue : record.issue = n)
    (hstep : ciStep w ⟨.writeJournal (upsertRun w.seen.journal record), answer⟩ w')
    (hraised : ∀ old ∈ w.seen.journal.runs, old.issue = n → record.ciRounds ≤ old.ciRounds)
    (howed : n ∈ w'.owed) : n ∈ w.owed := by
  have hjournal := journal_wrote hstep
  rw [hstep.2] at howed
  rcases owed_moved howed with hold | hnew
  · exact hold
  · obtain ⟨-, old, hold, hsame, hlt⟩ := counted_wrote h.only.nodup hjournal hnew
    exact absurd hlt (Nat.not_lt.mpr (hraised old hold (hsame.trans hissue)))

/-- Only the top of the loop ends the taking of work. -/
theorem taking_step (hop : op ≠ .stopping) (htaking : w.taking = true)
    (hstep : ciStep w ⟨op, answer⟩ w') : w'.taking = true := by
  rw [hstep.2]
  show w.takes ⟨op, answer⟩ = true
  cases op with
  | stopping => exact absurd rfl hop
  | checkBudget => rfl
  | _ => exact htaking

end Step

/-! ### One issue -/

section Work

variable {w w' : CiWatch}

/-- `workIssue` neither raises the `ciRounds` of a record nor makes them up. -/
theorem Rewritten.ciRounds {job : Job} {current : Journal} {record : RunRecord}
    (h : Rewritten job current record) :
    (∃ old ∈ current.runs, old.issue = job.number ∧ record.ciRounds = old.ciRounds) ∨
      record.ciRounds = 0 := by
  cases h with
  | taken record start =>
    rcases start with hfind | ⟨-, startedAt, updatedAt, rfl⟩
    · exact .inl ⟨record, (findRun_mem hfind).1, (findRun_mem hfind).2, rfl⟩
    · exact .inr rfl
  | spent record mem number => exact .inl ⟨record, mem, number, rfl⟩
  | noted record mem number => exact .inl ⟨record, mem, number, rfl⟩
  | givenUp record mem number => exact .inl ⟨record, mem, number, rfl⟩
  | published record mem number => exact .inl ⟨record, mem, number, rfl⟩

/-- What `workIssue` writes raises no rounds, and keeps the pull request of those there are. -/
theorem rewritten_calm {job : Job} {record : RunRecord}
    {answer : Op.Answer (.writeJournal (upsertRun w.seen.journal record))}
    (h : Calm job.number w) (hnot : job.number ∉ w.owed)
    (hrecord : Rewritten job w.seen.journal record)
    (hkept : movesPull w.seen.journal ⟨.writeJournal (upsertRun w.seen.journal record),
      answer⟩ = false)
    (hstep : ciStep w ⟨.writeJournal (upsertRun w.seen.journal record), answer⟩ w') :
    Calm job.number w' ∧ job.number ∉ w'.owed := by
  have hissue := hrecord.issue
  have hraised : ∀ old ∈ w.seen.journal.runs, old.issue = job.number →
      record.ciRounds ≤ old.ciRounds := by
    intro old hold hnumber
    rcases hrecord.ciRounds with ⟨own, hown, hsame, hkept⟩ | hzero
    · rw [hkept, eq_of_issue h.only.nodup hold hown (hnumber.trans hsame.symm)]
    · rw [hzero]
      exact Nat.zero_le _
  have hcounts : Counts job.number w record := by
    rcases hrecord.ciRounds with ⟨old, hold, hnumber, hsame⟩ | hzero
    · by_cases hzero : old.ciRounds = 0
      · exact .inl (hsame.trans hzero)
      · refine .inr ⟨old, hold, hnumber, Decidable.byContradiction fun hother => ?_, .inl hsame⟩
        have hmoved : movesPull w.seen.journal
            ⟨.writeJournal (upsertRun w.seen.journal record), answer⟩ = true := by
          refine List.any_eq_true.mpr ⟨record, self_mem_upsertRun _ _, ?_⟩
          refine List.any_eq_true.mpr ⟨old, hold, ?_⟩
          simp only [hissue, hnumber, hzero, Ne.symm hother, ne_eq, not_false_eq_true, decide_true,
            Bool.and_self]
        rw [hkept] at hmoved
        exact Bool.false_ne_true hmoved
    · exact .inl hzero
  exact ⟨calm_wrote h hissue (fun _ => hnot) hcounts hstep,
    fun howed => hnot (owed_wrote h hissue hstep hraised howed)⟩

/-- The label is the first thing of a run that can be seen. -/
theorem trans_of_idle {job : Job} {b : Phase} {v : WorkEvent} (h : Trans job .idle v b) :
    ∃ ok, v = .claimed ok := by
  cases h
  exact ⟨_, rfl⟩

/-- An issue is worked on while nothing is owed to it. -/
theorem workJob_calm [Host] [Unicode] {job : Job} (h : Calm job.number w)
    (htaking : w.taking = true) :
    Ensures sparedStep (Calm job.number) (fun _ => Calm job.number) (workJob job) w
      fun _ => Calm job.number := by
  refine ((workJob_follows job).ensures (fun phase w => Calm job.number w ∧ w.taking = true ∧
    Synced Reliable job w.seen.journal phase ∧ (phase = .idle ∨ job.number ∉ w.owed))
      (workJob_emits job) ?_ ?_ ⟨h, htaking, trivial, .inl rfl⟩).mono
      (fun _ _ ⟨_, _, hinv⟩ => hinv.1) (fun _ _ ⟨_, _, hinv⟩ => hinv.1) fun _ ⟨_, _, hinv⟩ => hinv.1
  · rintro phase op answer w w' hop hview ⟨hcalm, htaking, hsync, hfree⟩ ⟨hstep, -⟩
    obtain ⟨hseen, howed, hcalm'⟩ :=
      calm_keeps hcalm (keepsJournal_of_view_none hview) (.inl htaking) hstep
    refine ⟨hcalm', taking_step (fun hstop => ?_) htaking hstep, by rwa [hseen], hfree.imp_right ?_⟩
    · subst hstop
      exact hop
    · exact fun hnot hin => hnot (howed hin)
  · rintro a b v op answer w w' hop hview htrans ⟨hcalm, htaking, hsync, hfree⟩ ⟨hstep, hspared⟩
    have htaking' : w'.taking = true := by
      refine taking_step (fun hstop => ?_) htaking hstep
      subst hstop
      exact hop
    have hnot : job.number ∉ w.owed := by
      rcases hfree with rfl | hnot
      · obtain ⟨ok, rfl⟩ := trans_of_idle htrans
        obtain ⟨issue, answer', hevent, -⟩ := view_claimed hview
        cases hevent
        have hissue : issue = job.number := hop
        exact hissue ▸ hspared.taken issue (by simp [takesUp])
      · exact hnot
    have hdone : Calm job.number w' ∧ job.number ∉ w'.owed := by
      by_cases hv : ∃ journal ok, v = .wrote journal ok
      · obtain ⟨journal, ok, rfl⟩ := hv
        obtain ⟨current, record, rfl, hcurrent, hrecord⟩ := trans_wrote htrans hsync
        have hstored : current = w.seen.journal := hcurrent.elim id Eq.symm
        rw [hstored] at hview hrecord
        obtain ⟨answer', hevent, -⟩ := view_wrote hview
        cases hevent
        exact rewritten_calm hcalm hnot hrecord hspared.kept hstep
      · obtain ⟨-, howed, hcalm'⟩ := calm_keeps hcalm
          (keepsJournal_of_view hview fun j ok hj => hv ⟨j, ok, hj⟩) (.inl htaking) hstep
        exact ⟨hcalm', fun hin => hnot (howed hin)⟩
    exact ⟨hdone.1, htaking', synced_step hview hstep.1.1 htrans hsync, .inr hdone.2⟩

end Work

/-! ### Pull requests -/

section Polls

variable [Unicode] {deps : RunnerDeps} {n : ℕ} {w : CiWatch} {record : RunRecord}

/-- What a part of `advance` keeps. -/
abbrev Looks {α : Type} (n : ℕ) (p : Action α) (w : CiWatch) (post : α → CiWatch → Prop) : Prop :=
  Ensures sparedStep (Calm n) (fun _ => Calm n) p w post

omit [Unicode] in
theorem plain_of_isGit (op : Op) (h : IsGit op) : Plain op := by
  obtain ⟨cwd, args, rfl⟩ := h
  trivial

/-- A part that neither writes the journal nor comments, followed by the rest. -/
theorem calm_bind {α β : Type} {p : Action α} {f : α → Action β} {post : β → CiWatch → Prop}
    (hp : p.Emits Plain) (h : Calm n w)
    (hf : ∀ x w', w'.seen = w.seen → (n ∈ w'.owed → n ∈ w.owed) → Calm n w' →
      Looks n (f x) w' post) : Looks n (p >>= f) w post := by
  refine ensures_bind ((ensures_emits (fun w' => (w'.seen = w.seen ∧ (n ∈ w'.owed → n ∈ w.owed)) ∧
    Calm n w') hp ?_ ⟨⟨rfl, id⟩, h⟩).mono ?_ (fun _ _ h => h.2) fun _ h => h.2)
  · rintro op answer s s' hop ⟨⟨hseen, howed⟩, hcalm⟩ ⟨hstep, -⟩
    obtain ⟨hseen', howed', hcalm'⟩ := calm_plain hcalm hop hstep
    exact ⟨⟨hseen'.trans hseen, fun h => howed (howed' h)⟩, hcalm'⟩
  · rintro x w' ⟨⟨hseen, howed⟩, hcalm⟩
    exact hf x w' hseen howed hcalm

/-- Read the journal again, and put the record of issue `n` in its place. -/
theorem rewrite_calm {changed : RunRecord} (h : Calm n w) (hissue : changed.issue = n)
    (hblocked : changed.status = .blocked → n ∉ w.owed) (hcounts : Counts n w changed)
    {post : CiWatch → Prop}
    (hpost : ∀ w', Calm n w' → changed ∈ w'.seen.journal.runs →
      ((∀ old ∈ w.seen.journal.runs, old.issue = n → changed.ciRounds ≤ old.ciRounds) →
        n ∈ w'.owed → n ∈ w.owed) → post w') :
    Looks n (readJournal >>= fun journal => writeJournal (upsertRun journal changed)) w
      fun _ => post := by
  refine ensures_bind (ensures_call h fun journal w₁ hread => ensures_ret ?_)
  have hjournal : journal = w.seen.journal := hread.1.1.1.1
  have hplain : Plain .readJournal := trivial
  obtain ⟨hseen, howed, hcalm⟩ := calm_plain h hplain hread.1
  rw [hjournal, ← hseen]
  have hblocked : changed.status = .blocked → n ∉ w₁.owed := fun hstatus hin =>
    hblocked hstatus (howed hin)
  have hcounts : Counts n w₁ changed := by
    unfold Counts at hcounts ⊢
    rw [hseen]
    exact hcounts.imp_right fun ⟨old, hold, hnumber, hpull, hsame⟩ =>
      ⟨old, hold, hnumber, hpull, hsame.imp_right
        fun ⟨hnot, hmore⟩ => ⟨fun hin => hnot (howed hin), hmore⟩⟩
  refine ensures_call hcalm fun answer w₂ hwrite => ?_
  have hdone : Calm n w₂ := calm_wrote hcalm hissue hblocked hcounts hwrite.1
  refine ensures_raise (fun _ hok => hpost w₂ hdone ?_ fun hraised hin => ?_) fun _ _ => hdone
  · rcases hwrite.1.1.1 with hreads | ⟨hfailed, -⟩
    · rw [hreads]
      exact self_mem_upsertRun _ _
    · rw [hok] at hfailed
      exact absurd hfailed (by simp [succeeded])
  · rw [← hseen] at hraised
    exact howed (owed_wrote hcalm hissue hwrite.1 hraised hin)

omit [Unicode] in
/-- The record may be written as it is, but for its status. -/
theorem counts_same (h : Calm n w) (hrun : record ∈ inFlight w.seen.journal) (status : RunStatus) :
    Counts n w { record with status := status } :=
  .inr ⟨record, (List.mem_filter.mp hrun).1, h.only.single record hrun, rfl, .inl rfl⟩

theorem finishRun_calm (h : Calm n w) (hrun : record ∈ inFlight w.seen.journal) :
    Looks n (finishRun deps record .done) w fun _ => Calm n := by
  have hissue : record.issue = n := h.only.single record hrun
  unfold finishRun
  refine calm_bind ((removeOwnWorktree_emits deps record).mono plain_of_isGit) h
    fun _ w' hseen _ hcalm => ?_
  rw [← hseen] at hrun
  have hchanged : ({ record with status := .done } : RunRecord).issue = n := hissue
  exact rewrite_calm hcalm hchanged nofun (counts_same hcalm hrun .done) fun _ hdone _ _ => hdone

/-- A round may be counted for an issue that is owed nothing. -/
theorem countCiRound_calm (h : Calm n w) (hrun : record ∈ inFlight w.seen.journal)
    (hnot : n ∉ w.owed) :
    Looks n (countCiRound record) w fun _ => Calm n := by
  have hissue : record.issue = n := h.only.single record hrun
  have hchanged : ({ record with ciRounds := record.ciRounds + 1 } : RunRecord).issue = n := hissue
  refine rewrite_calm h hchanged (fun _ => hnot) ?_ fun _ hdone _ _ => hdone
  exact .inr ⟨record, (List.mem_filter.mp hrun).1, hissue, rfl, .inr ⟨hnot, rfl⟩⟩

omit [Unicode] in
/-- As many rounds as there were fix rounds, and the one that was just found. -/
theorem unearned_ciExhausted {issue rounds : ℕ} {failing : List Text} {rest : Text}
    {input : RunnerCommentInput} {answer : Op.Answer (.comment issue input)}
    (hle : rounds ≤ w.fixes.count (issue, pullOf w.seen.journal issue))
    (hbody : input.body = ciExhausted (rounds + 1) failing ++ rest) :
    w.unearned ⟨.comment issue input, answer⟩ = false := by
  have hsays : saysRounds (rounds + 1) input.body = true := by
    unfold saysRounds
    rw [List.isPrefixOf_iff_prefix, hbody]
    unfold ciExhausted
    exact ⟨join (lit ", ") failing ++ lit "." ++ rest, by simp only [List.append_assoc]⟩
  have hany : (List.range (w.fixes.count (issue, pullOf w.seen.journal issue) + 2)).any
      (fun rounds => saysRounds rounds input.body) = true := by
    rw [List.any_eq_true]
    refine ⟨rounds + 1, List.mem_range.mpr ?_, hsays⟩
    omega
  show (_ && !List.any _ _) = false
  rw [hany, Bool.not_true, Bool.and_false]

omit [Unicode] in
/-- The rounds of an issue that is owed nothing were all followed by a fix round. -/
theorem rounds_le_fixes (h : Calm n w) (hrun : record ∈ w.seen.journal.runs)
    (hissue : record.issue = n) (hnot : n ∉ w.owed) :
    record.ciRounds ≤ w.fixes.count (record.issue, pullOf w.seen.journal record.issue) := by
  have hcovered := h.covered record hrun
  rw [CiWatch.allowed, if_neg (by rwa [hissue])] at hcovered
  rwa [pullOf_of_mem h.only.nodup hrun]

/-- An issue that is owed nothing may be given up. -/
theorem blockRun_calm {failing : List Text} (h : Calm n w) (hrun : record ∈ inFlight w.seen.journal)
    (hnot : n ∉ w.owed) :
    Looks n (blockRun deps record (ciExhausted (record.ciRounds + 1) failing)) w
      fun _ => Calm n := by
  have hmem : record ∈ w.seen.journal.runs := (List.mem_filter.mp hrun).1
  have hissue : record.issue = n := h.only.single record hrun
  show Looks n ((readJournal >>= fun journal =>
    writeJournal (upsertRun journal { record with status := .blocked })) >>= fun _ => _) w _
  have hchanged : ({ record with status := .blocked } : RunRecord).issue = n := hissue
  refine ensures_bind (rewrite_calm h hchanged (fun _ => hnot) (counts_same h hrun .blocked) ?_)
  intro w₁ hcalm hwritten howed
  have hnot₁ : n ∉ w₁.owed := by
    refine fun hin => hnot (howed (fun old hold hnumber => ?_) hin)
    rw [eq_of_issue h.only.nodup hold hmem (hnumber.trans hissue.symm)]
  refine calm_bind ⟨trivial, fun answer => emits_raise answer⟩ hcalm
    fun _ w₂ hseen₂ howed₂ hcalm => ?_
  refine calm_bind ⟨trivial, fun answer => emits_raise answer⟩ hcalm
    fun _ w₃ hseen₃ howed₃ hcalm => ?_
  refine ensures_call hcalm fun answer w₄ hcomment => ?_
  rw [← hseen₂, ← hseen₃] at hwritten
  have hearned := rounds_le_fixes hcalm hwritten hchanged
    fun hin => hnot₁ (howed₂ (howed₃ hin))
  have hdone := (calm_keeps hcalm (fun _ hop => Op.noConfusion hop)
    (.inr (unearned_ciExhausted hearned rfl)) hcomment.1).2.2
  exact ensures_raise (fun _ _ => hdone) fun _ _ => hdone

theorem advanceFailing_calm {failing : List Text} (h : Calm n w)
    (hrun : record ∈ inFlight w.seen.journal) (hnot : n ∉ w.owed) :
    Looks n (advanceFailing deps record failing) w fun _ => Calm n := by
  unfold advanceFailing
  split
  · exact ensures_bind ((blockRun_calm h hrun hnot).weaken fun _ _ hcalm => ensures_ret hcalm)
  · exact ensures_bind ((countCiRound_calm h hrun hnot).weaken fun _ _ hcalm => ensures_ret hcalm)

/-- The poll comes to the checks; where they fail, nothing is owed to the issue. -/
theorem advanceOpen_calm {number : ℕ} {pr : GhPullRequest} {mergeable : Mergeability}
    (h : Calm n w) (hrun : record ∈ inFlight w.seen.journal)
    (hspared : mergeable ≠ .conflicted → (summariseChecks pr).1 = .failing → n ∉ w.owed) :
    Looks n (advanceOpen deps record number pr mergeable) w fun _ => Calm n := by
  unfold advanceOpen
  split
  · exact ensures_ret h
  · rename_i hclean
    dsimp only
    split
    · exact ensures_ret h
    · exact ensures_ret h
    · rename_i hfailing
      exact advanceFailing_calm h hrun (hspared hclean hfailing)
    · exact ensures_ret h

theorem advanceRun_calm (h : Calm n w) (hrun : record ∈ inFlight w.seen.journal) :
    Looks n (advanceRun deps record) w fun _ => Calm n := by
  have hissue : record.issue = n := h.only.single record hrun
  unfold advanceRun
  split
  · exact ensures_ret h
  · rename_i number hnumber
    refine ensures_bind (ensures_call h fun answer w₁ hshown => ?_)
    have hplain : Plain (.pullRequest number) := trivial
    obtain ⟨hseen₁, -, hcalm₁⟩ := calm_plain h hplain hshown.1
    refine ensures_raise (fun pr hpr => ?_) fun _ _ => hcalm₁
    rw [← hseen₁] at hrun
    split
    · exact ensures_bind ((finishRun_calm hcalm₁ hrun).weaken fun _ _ hcalm => ensures_ret hcalm)
    · rename_i hmerged
      split
      · exact ensures_bind ((finishRun_calm hcalm₁ hrun).weaken fun _ _ hcalm => ensures_ret hcalm)
      · rename_i hclosed
        have hopen : pr.isSettled = false := by simp [GhPullRequest.isSettled, hmerged, hclosed]
        have hpr₁ : w₁.shown = some pr := by
          rw [hshown.1.2, hpr]
          rfl
        refine ensures_bind (ensures_call hcalm₁ fun answer w₂ hmerges => ?_)
        have hplain : Plain (.mergeability number) := trivial
        obtain ⟨hseen₂, howed₂, hcalm₂⟩ := calm_plain hcalm₁ hplain hmerges.1
        have hpr₂ : w₂.shown = some pr := by
          rw [hmerges.1.2]
          exact hpr₁
        rw [← hseen₂] at hrun
        refine ensures_raise (fun mergeable hmergeable => ?_) fun _ _ => hcalm₂
        rw [hmergeable] at hmerges
        split
        · -- behind: the checks are looked at only where the branch could not be updated
          refine ensures_bind (ensures_attempt (ensures_call hcalm₂ fun answer w₃ hupdates => ?_))
          have hplain : Plain (.updateBranch number) := trivial
          obtain ⟨hseen₃, howed₃, hcalm₃⟩ := calm_plain hcalm₂ hplain hupdates.1
          refine ensures_raise (fun _ _ => ensures_ret hcalm₃) fun e he => ?_
          rw [he] at hupdates
          refine advanceOpen_calm hcalm₃ (by rwa [hseen₃]) fun _ hfailing hin => ?_
          have hnot := hupdates.2.polled ⟨rfl, pr, hpr₂, hopen, hfailing⟩ record hrun
          exact hnot (hissue ▸ howed₃ hin)
        · rename_i hbehind
          refine advanceOpen_calm hcalm₂ hrun fun hclean hfailing hin => ?_
          have hlooks : looksAtChecks ⟨.mergeability number, .ok mergeable⟩ = true := by
            simp [looksAtChecks, hclean, hbehind]
          have hnot :=
            hmerges.2.polled ⟨hlooks, pr, hpr₁, hopen, hfailing⟩ record (by rwa [← hseen₂])
          exact hnot (hissue ▸ howed₂ hin)

/-- With one run in flight at most, `advance` polls once at most. -/
theorem advance_calm (h : Calm n w) : Looks n (advance deps) w fun _ => Calm n := by
  unfold advance
  refine ensures_bind (ensures_call h fun journal w₁ hread => ensures_ret ?_)
  have hjournal : journal = w.seen.journal := hread.1.1.1.1
  have hplain : Plain .readJournal := trivial
  obtain ⟨hseen, -, hcalm⟩ := calm_plain h hplain hread.1
  rw [hjournal, ← hseen]
  refine ensures_bind (Ensures.weaken ?_ fun _ _ hcalm => ensures_ret hcalm)
  have hone := hcalm.only.inFlight_le
  match hflight : inFlight w₁.seen.journal with
  | [] => exact ensures_ret hcalm
  | [record] =>
    have hrun : record ∈ inFlight w₁.seen.journal := hflight ▸ List.mem_cons_self
    exact ensures_bind ((advanceRun_calm hcalm hrun).weaken fun _ _ hcalm =>
      ensures_bind (ensures_ret (ensures_ret hcalm)))
  | _ :: _ :: _ =>
    rw [hflight] at hone
    simp at hone

end Polls

/-! ### The session -/

/-- One run in flight at most, every round covered, and nothing violated. -/
def Steady (w : CiWatch) : Prop := ∃ n, Calm n w

section Sessions

variable [Host] [Unicode] {deps : RunnerDeps} {w : CiWatch}

abbrev Guards {α : Type} (p : Action α) (w : CiWatch) (post : α → CiWatch → Prop) : Prop :=
  Ensures sparedStep Steady (fun _ => Steady) p w post

omit [Host] in
/-- A part that neither writes the journal nor comments. -/
theorem steady_part {α : Type} {p : Action α} (hp : p.Emits Plain) (h : Steady w) :
    Guards p w fun _ => Steady := by
  refine ensures_emits Steady hp ?_ h
  rintro op answer s s' hop ⟨n, hcalm⟩ ⟨hstep, -⟩
  exact ⟨n, (calm_plain hcalm hop hstep).2.2⟩

omit [Host] in
theorem steady_bind {α β : Type} {p : Action α} {f : α → Action β} {post : β → CiWatch → Prop}
    (hp : p.Emits Plain) (h : Steady w) (hf : ∀ x w', Steady w' → Guards (f x) w' post) :
    Guards (p >>= f) w post :=
  ensures_bind ((steady_part hp h).weaken hf)

omit [Host] [Unicode] in
theorem plain_of_planOp (op : Op) (h : PlanOp op) : Plain op := by
  cases op <;> trivial

theorem runOnce_steady {skip : Option (List ℕ)} (h : Steady w) (htaking : w.taking = true) :
    Guards (runOnce deps skip) w fun _ => Steady := by
  obtain ⟨n, hcalm⟩ := h
  have hframe : Ensures sparedStep (fun w' => Calm n w' ∧ w'.taking = true)
      (fun _ w' => Calm n w' ∧ w'.taking = true) (plan deps skip) w
      fun _ w' => Calm n w' ∧ w'.taking = true := by
    refine ensures_emits (fun w' => Calm n w' ∧ w'.taking = true) (plan_emits deps skip) ?_
      ⟨hcalm, htaking⟩
    rintro op answer s s' hop ⟨hcalm, htaking⟩ ⟨hstep, -⟩
    refine ⟨(calm_plain hcalm (plain_of_planOp op hop) hstep).2.2, ?_⟩
    refine taking_step (fun hstop => ?_) htaking hstep
    subst hstop
    exact hop
  have hplan : Ensures watch Serial (fun _ => Serial) (plan deps skip) w.seen Planned :=
    plan_only hcalm.only
  have hplan := hplan.within CiWatch.seen
    fun (w : CiWatch) event w' (hstep : sparedStep w event w') => hstep.1.1
  have hwork : ∀ (issue : IssueSummary) (options : WorkOptions) (w : CiWatch),
      Calm issue.number w → w.taking = true →
      Guards (workIssue deps issue options >>= fun outcome => .ret (onceResult outcome)) w
        fun _ => Steady := by
    intro issue options w hcalm htaking
    have hjob : Calm (newJob deps issue options).number w := hcalm
    exact ensures_bind ((workJob_calm hjob htaking).mono (fun _ _ hcalm => ensures_ret ⟨_, hcalm⟩)
      (fun _ _ hcalm => ⟨_, hcalm⟩) fun _ hcalm => ⟨_, hcalm⟩)
  unfold runOnce
  refine ensures_bind ((hplan.and hframe).mono ?_ (fun _ _ hend => ⟨n, hend.2.1⟩)
    fun _ hend => ⟨n, hend.2.1⟩)
  rintro decision w' ⟨hplanned, hcalm', htaking'⟩
  cases decision with
  | report result => exact ensures_ret ⟨n, hcalm'⟩
  | resume issue startRound resumption =>
    exact hwork _ _ _ ⟨hplanned, hcalm'.covered, hcalm'.sound⟩ htaking'
  | start issue => exact hwork _ _ _ ⟨hplanned, hcalm'.covered, hcalm'.sound⟩ htaking'

omit [Host] [Unicode] in
theorem finishSession_plain (session : Session) (stopReason : StopReason) (detail : Text) :
    (finishSession session stopReason detail).Emits Plain := by
  unfold finishSession
  refine emits_bind ⟨trivial, fun _ => trivial⟩ fun _ => ?_
  refine emits_bind ⟨trivial, fun _ => trivial⟩ fun _ => ?_
  exact emits_bind ⟨trivial, fun _ => trivial⟩ fun _ => trivial

omit [Host] [Unicode] in
theorem tolerate_plain (session : Session) (detail : ℕ → Text) :
    (tolerate deps session detail).Emits Plain := by
  unfold tolerate
  dsimp only
  split
  · exact emits_bind (finishSession_plain _ _ _) fun _ => trivial
  · exact ⟨trivial, fun _ => trivial⟩

theorem takeWork_steady {session : Session} (h : Steady w) :
    Guards (takeWork deps session) w fun _ => Steady := by
  have hend : ∀ (session : Session) (stopReason : StopReason) (detail : Text) (w : CiWatch),
    Steady w →
      Guards (finishSession session stopReason detail >>=
        fun result => .ret (CycleEnd.finished result))
        w fun _ => Steady := fun session stopReason detail w h =>
    steady_bind (finishSession_plain _ _ _) h fun _ _ h => ensures_ret h
  unfold takeWork
  dsimp only
  split
  · exact hend _ _ _ w h
  · refine ensures_bind (ensures_call h fun answer w₁ hchecked => ensures_ret ?_)
    obtain ⟨n, hcalm⟩ := h
    have hplain : Plain .checkBudget := trivial
    have h₁ : Steady w₁ := ⟨n, (calm_plain hcalm hplain hchecked.1).2.2⟩
    have htaking : w₁.taking = true := by
      rw [hchecked.1.2]
      rfl
    split
    · exact hend _ _ _ w₁ h₁
    · refine ensures_bind (ensures_attempt ((runOnce_steady h₁ htaking).mono ?_ ?_ fun _ h => h))
      · intro result w₂ h₂
        have hnotes : ∀ (outcomes : List IssueOutcome) (session : Session),
            (noteOutcomes session outcomes).Emits Plain := by
          intro outcomes
          induction outcomes with
          | nil => exact fun session => trivial
          | cons outcome rest ih => exact fun session => ⟨trivial, fun _ => ih _⟩
        refine steady_bind (hnotes _ _) h₂ fun session w₃ h₃ => ?_
        split
        · exact hend _ _ _ w₃ h₃
        · exact ensures_ret h₃
      · exact fun _ w₂ h₂ => steady_part (tolerate_plain session _) h₂

/-- One turn of the loop. -/
theorem cycle_steady {session : Session} (h : Steady w) :
    Guards (cycle deps session) w fun _ => Steady := by
  obtain ⟨n, hcalm⟩ := h
  unfold cycle
  refine ensures_bind (ensures_attempt ((advance_calm hcalm).mono ?_ ?_ fun _ hcalm => ⟨n, hcalm⟩))
  · intro advanced w₁ hcalm
    unfold afterAdvance
    refine steady_bind ⟨trivial, fun _ => trivial⟩ ⟨n, hcalm⟩ fun journal w₂ h₂ => ?_
    split
    · exact takeWork_steady h₂
    · exact ensures_ret h₂
  · exact fun _ w₁ hcalm => steady_part (tolerate_plain session _) ⟨n, hcalm⟩

/-- However many turns the loop takes. -/
theorem sessionLoop_steady (turns : ℕ) : ∀ (session : Session) (w : CiWatch), Steady w →
    Guards (sessionLoop deps turns session) w fun _ => Steady := by
  have hstop : ∀ (session : Session) (w : CiWatch), Steady w →
      Guards (finishSession session .interrupted interruptedDetail >>= fun result =>
        .ret (some result)) w fun _ => Steady := fun session w h =>
    steady_bind (finishSession_plain _ _ _) h fun _ _ h => ensures_ret h
  induction turns with
  | zero => exact fun session w h => ensures_ret h
  | succ turns ih =>
    intro session w h
    unfold sessionLoop
    refine steady_bind ⟨trivial, fun _ => trivial⟩ h fun stop w h => ?_
    split
    · exact hstop session w h
    · refine ensures_bind ((cycle_steady h).weaken fun ending w h => ?_)
      split
      · exact ensures_ret h
      · exact ih _ w h
      · dsimp only
        refine steady_bind ⟨trivial, fun _ => trivial⟩ h fun stop w h => ?_
        split
        · exact hstop _ w h
        · exact steady_bind ⟨trivial, fun _ => trivial⟩ h fun _ w h => ih _ w h

/-- **Rounds of failing checks.**  In every run of a session that begins on rounds that are covered
by fix rounds, after any calls of `runOnce` and `advance`, whatever GitHub and the agents answer and
wherever the run is interrupted: provided that every event is spared, no round is counted and no
issue blocked while a fix round is owed, an issue given up after `k` rounds has had `k - 1` fix
rounds for its pull request, and the rounds are covered again for the next session. -/
theorem ciRounds_earned (deps : RunnerDeps) (turns : ℕ)
    (made : List (Made Call Op Op.Answer Text Unit))
    (before : CiWatch) (trace : List RunnerEvent) (outcome : Outcome Text (Option UnattendedResult))
    (w : CiWatch) (hbefore : History ciStep Call.program newCiWatch made before)
    (hcovered : Covered before) (hrun : Run (runUnattended deps turns) trace outcome)
    (hsteps : Steps sparedStep before.begun trace w) : w.violated = false ∧ Covered w := by
  have hempty : Serial newCiWatch.seen :=
    ⟨0, List.nodup_nil, by simp [newCiWatch, newWatched, inFlight, emptyJournal], rfl⟩
  have hserial : Serial before.seen := by
    refine @History.keeps _ _ _ _ _ _ _ _ _ _ _ (fun w : CiWatch => Serial w.seen) hbefore
      (fun call w hw => ?_) hempty
    exact (call_serial call hw).within CiWatch.seen fun _ _ _ hstep => hstep.1
  obtain ⟨n, honly⟩ := hserial
  have hstart : Steady before.begun := ⟨n, honly, hcovered, rfl⟩
  have hsession : Guards (runUnattended deps turns) before.begun fun _ => Steady :=
    steady_bind ⟨trivial, fun _ => trivial⟩ hstart
      fun startedAt w h => sessionLoop_steady turns _ w h
  have hmeets := hsession trace outcome w hrun hsteps
  have hend : Steady w := by
    cases outcome with
    | returned a => exact hmeets
    | threw e => exact hmeets
    | interrupted => exact hmeets
  obtain ⟨_, hcalm⟩ := hend
  exact ⟨hcalm.sound, hcalm.covered⟩

end Sessions

/-! ### Checks that stay red -/

/-- A script, with the rounds and the fix rounds written down. -/
def ciWorld (script : Script) (w : CiWatch) (op : Op) : Option (op.Answer × CiWatch) :=
  (rehearse script w.seen.journal op).map fun answered => (answered.1, w.moved ⟨op, answered.1⟩
    ⟨answered.2, w.seen.evicted ++ dropped w.seen.journal answered.2⟩)

theorem ciWorld_steps {script : Script} (hscript : script.Honest) (w : CiWatch) (op : Op)
    (answer : op.Answer) (w' : CiWatch) (h : ciWorld script w op = some (answer, w')) :
    ciStep w ⟨op, answer⟩ w' := by
  obtain ⟨answered, hanswered, heq⟩ := Option.map_eq_some_iff.mp h
  obtain ⟨rfl, rfl⟩ := Prod.mk.inj heq
  have hread : ∀ journal, Reliable journal journal := fun _ => rfl
  exact ⟨⟨rehearse_steps hread hscript _ _ _ _ hanswered, rfl⟩, rfl⟩

/-- The same, cut off before an event that is not spared. -/
def sparingWorld [Unicode] (script : Script) (w : CiWatch) (op : Op) :
    Option (op.Answer × CiWatch) :=
  (ciWorld script w op).filter fun answered => Spared w ⟨op, answered.1⟩

theorem sparingWorld_steps [Unicode] {script : Script} (hscript : script.Honest) (w : CiWatch)
    (op : Op)
    (answer : op.Answer) (w' : CiWatch) (h : sparingWorld script w op = some (answer, w')) :
    sparedStep w ⟨op, answer⟩ w' := by
  obtain ⟨hanswered, hspared⟩ := Option.filter_eq_some_iff.mp h
  exact ⟨ciWorld_steps hscript w op answer w' hanswered, of_decide_eq_true hspared⟩

/-- A pull request one check of which has failed. -/
def redPullRequest (number : ℕ) : GhPullRequest :=
  ⟨number, lit "OPEN", none,
    some [⟨some (lit "Tests"), none, some (lit "COMPLETED"), some (lit "FAILURE"), none⟩]⟩

/-- The checks fail whenever they are asked for. -/
def alwaysRed : Script := fun _ op =>
  match op with
  | .pullRequest number => some (.ok (redPullRequest number))
  | op => some (calm op)

theorem alwaysRed_honest : alwaysRed.Honest := by
  intro journal number issue hissue
  cases hissue
  rfl

/-- A comment that gives an issue up after so many rounds. -/
def givesUpAfter (rounds : ℕ) : RunnerEvent → Bool
  | ⟨.comment _ input, _⟩ => saysRounds rounds input.body
  | _ => false

/-- Issue 1 is taken and its pull request opened; a round of failing checks is counted; and the
checks are fixed. -/
def fixedCalls : List (Call × (CiWatch → (op : Op) → Option (op.Answer × CiWatch))) :=
  [(.once sampleDeps none, ciWorld alwaysRed), (.move sampleDeps, ciWorld alwaysRed),
    (.once sampleDeps none, ciWorld alwaysRed)]

def fixedMade : List (Made Call Op Op.Answer Text Unit) × CiWatch :=
  playAll (@Call.program asciiHost asciiUnicode) fixedCalls newCiWatch

theorem fixedMade_history :
    History ciStep (@Call.program asciiHost asciiUnicode) newCiWatch fixedMade.1 fixedMade.2 := by
  refine history_playAll id fixedCalls [] newCiWatch .nil fun call hcall => ?_
  have hworld : call.2 = ciWorld alwaysRed := by
    simp only [fixedCalls, List.mem_cons, List.not_mem_nil, or_false] at hcall
    rcases hcall with rfl | rfl | rfl <;> rfl
  rw [hworld]
  exact ciWorld_steps alwaysRed_honest

/-- The runner that gives up in the second round. -/
def impatientDeps : RunnerDeps :=
  { sampleDeps with
    config := { defaultConfig with ciFixRounds := 2, ciFixRounds_le := by decide } }

/-- A session that finds the checks failing once more. -/
def secondRedSession : List RunnerEvent × Outcome Text (Option UnattendedResult) × CiWatch :=
  play (@sparingWorld asciiUnicode alwaysRed)
    (@runUnattended asciiHost asciiUnicode impatientDeps 1)
    fixedMade.2.begun

theorem secondRedSession_facts : Covered fixedMade.2 ∧ fixedMade.2.fixes = [(1, some 7)] ∧
    secondRedSession.1.any (givesUpAfter 2) = true := by
  decide +kernel

theorem secondRedSession_run :
    Run (@runUnattended asciiHost asciiUnicode impatientDeps 1) secondRedSession.1
      secondRedSession.2.1 :=
  run_play (@sparingWorld asciiUnicode alwaysRed) _ _

theorem secondRedSession_steps :
    Steps (@sparedStep asciiUnicode) fixedMade.2.begun secondRedSession.1 secondRedSession.2.2 :=
  steps_play (@sparingWorld asciiUnicode alwaysRed) id
    (@sparingWorld_steps asciiUnicode alwaysRed alwaysRed_honest)
    (@runUnattended asciiHost asciiUnicode impatientDeps 1) fixedMade.2.begun

/-- One round was followed by a fix round, and the issue is given up after the second. -/
theorem ciRounds_earned_once :
    fixedMade.2.fixes = [(1, some 7)] ∧ secondRedSession.1.any (givesUpAfter 2) = true ∧
      secondRedSession.2.2.violated = false ∧ Covered secondRedSession.2.2 := by
  obtain ⟨hcovered, hfixes, hgiven⟩ := secondRedSession_facts
  exact ⟨hfixes, hgiven,
    @ciRounds_earned asciiHost asciiUnicode impatientDeps 1 fixedMade.1 fixedMade.2 _ _ _
    fixedMade_history hcovered secondRedSession_run secondRedSession_steps⟩

/-- A session on an empty journal: it takes issue 1, opens a pull request, and then polls. -/
def redSession : List RunnerEvent × Outcome Text (Option UnattendedResult) × CiWatch :=
  play (ciWorld alwaysRed) (@runUnattended asciiHost asciiUnicode sampleDeps 5) newCiWatch.begun

theorem redSession_facts : redSession.1.any (givesUpAfter 3) = true ∧ redSession.2.2.fixes = [] ∧
    redSession.2.2.violated = true := by
  decide +kernel

theorem redSession_run :
    Run (@runUnattended asciiHost asciiUnicode sampleDeps 5) redSession.1 redSession.2.1 :=
  run_play (ciWorld alwaysRed) _ _

theorem redSession_steps : Steps ciStep newCiWatch.begun redSession.1 redSession.2.2 :=
  steps_play (ciWorld alwaysRed) id (ciWorld_steps alwaysRed_honest)
    (@runUnattended asciiHost asciiUnicode sampleDeps 5) newCiWatch.begun

/-- The issue is given up after three rounds, and the coding agent was never asked to fix a
check. -/
theorem given_up_without_fix :
    ∃ trace outcome w, Run (@runUnattended asciiHost asciiUnicode sampleDeps 5) trace outcome ∧
      Steps ciStep newCiWatch.begun trace w ∧ trace.any (givesUpAfter 3) = true ∧
      w.fixes = [] ∧ ¬ w.violated = false := by
  obtain ⟨hgiven, hfixes, hviolated⟩ := redSession_facts
  refine ⟨_, _, _, redSession_run, redSession_steps, hgiven, hfixes, ?_⟩
  rw [hviolated]
  simp

end Newsdeck.Runner

import Newsdeck.Library.Reliance
import Newsdeck.Runner.JournalText
import Newsdeck.Runner.Rehearsal
import Newsdeck.Runner.Slug

/-!
# The journals the runner writes

Whatever is read of the journal file fits its schema.  A call goes on with what it read, and writes
it with the record of one issue replaced; so all it has to see to is that this record fits.

* `Sane`, `WritesFitting` — what a call relies on, and what it guarantees;
* `workJob_writes`, `advance_writes` — every call guarantees it whose branch and worktree fit;
* `fits_of_written` — no other call does;
* `JournalCall.Bounded` — which calls these are, told from the title of the issue.
-/

namespace Newsdeck.Runner

open Ecma Loop Effects Effects.Prog

/-- GitHub numbers issues and pull requests from one. -/
def Numbered (number : ℕ) : Prop := 1 ≤ number ∧ number ≤ Schema.maxSafe

/-- The answers a call relies on. -/
def Sane (event : RunnerEvent) : Prop :=
  match event with
  | ⟨.readJournal, journal⟩ => journal.Fits
  | ⟨.createPullRequest _, answer⟩ => ∀ number, answer = .ok number → Numbered number
  | ⟨.pullRequestForBranch _, answer⟩ => ∀ pr, answer = .ok (some pr) → Numbered pr.number
  | _ => True

/-- Whatever is written to the journal fits. -/
def WritesFitting (op : Op) : Prop := ∀ journal, op = .writeJournal journal → journal.Fits

abbrev Writes {α : Type} (p : Action α) (post : α → Prop) : Prop :=
  Upholds Sane WritesFitting p post

/-! ### Records that fit -/

theorem upsertRun_fits {journal : Journal} {run : RunRecord} (hjournal : journal.Fits)
    (hrun : run.Fits) : (upsertRun journal run).Fits := by
  refine ⟨List.length_take_le _ _, fun r hr => ?_⟩
  rcases mem_upsertRun hr with rfl | ⟨hr, -⟩
  · exact hrun
  · exact hjournal.runs r hr

theorem appendAttempt_fits {run : RunRecord} {attempt : Attempt} (hrun : run.Fits)
    (hattempt : attempt.Fits) : (appendAttempt run attempt).Fits := by
  refine ⟨hrun.issue, hrun.branch, hrun.worktree, hrun.fixRounds, hrun.ciRounds,
    hrun.conflictRounds, hrun.pullRequest, length_takeLast_le _ _, fun a ha => ?_⟩
  rcases List.mem_append.mp (mem_of_mem_takeLast ha) with ha | ha
  · exact hrun.attempts a ha
  · obtain rfl := List.mem_singleton.mp ha
    exact hattempt

structure Draft.Fits (draft : Draft) : Prop where
  journal : draft.journal.Fits
  record : draft.record.Fits

/-- The fields every record of the issue is given. -/
structure Job.Fits (job : Job) : Prop where
  number : Numbered job.number
  branch : job.branch.length ≤ 255
  worktree : job.worktree.length ≤ 4096

theorem freshRecord_fits {job : Job} (h : job.Fits) (startedAt updatedAt : Text) :
    (freshRecord job startedAt updatedAt).Fits where
  issue := h.number
  branch := h.branch
  worktree := h.worktree
  fixRounds := Nat.zero_le _
  ciRounds := Nat.zero_le _
  conflictRounds := Nat.zero_le _
  pullRequest := by simp [freshRecord]
  count := Nat.zero_le _
  attempts := by simp [freshRecord]

theorem taken_fits {job : Job} {record : RunRecord} (hjob : job.Fits) (h : record.Fits) :
    (taken job record).Fits :=
  { h with branch := hjob.branch, worktree := hjob.worktree }

theorem published_fits {record : RunRecord} {at_ : Text} {number : ℕ} {risk : RiskLevel}
    (h : record.Fits) (hnumber : Numbered number) : (published record risk at_ number).Fits := by
  have hlead : (lit "Pull request #").length = 14 := by decide
  have hdigits : (decimal number).length ≤ 16 :=
    length_decimal_le (by decide) (hnumber.2.trans_lt (by decide))
  have happended : (appendAttempt record (publishAttempt at_ number)).Fits := by
    refine appendAttempt_fits h ?_
    show (lit "Pull request #" ++ decimal number).length ≤ 2000
    rw [List.length_append, hlead]
    omega
  exact { happended with pullRequest := fun n hn => Option.some.inj hn ▸ hnumber }

/-! ### Parts that write nothing -/

section Parts

variable {α β : Type} {job : Job} {draft : Draft}

theorem keepsJournal_of_quiet (op : Op) (h : Quiet op) : KeepsJournal op := by
  rintro journal rfl
  have hview := h (.ok ())
  simp [workView] at hview

theorem writes_nothing {P : Op → Prop} {p : Action α} (h : p.Emits P)
    (hP : ∀ op, P op → KeepsJournal op) : Writes p fun _ => True :=
  h.upholds fun op hop journal heq => absurd heq (hP op hop journal)

/-- A part that writes nothing, followed by the rest. -/
theorem writes_quiet_bind {p : Action α} {f : α → Action β} {post : β → Prop} (h : p.Emits Quiet)
    (hf : ∀ a, Writes (f a) post) : Writes (p >>= f) post :=
  (writes_nothing h keepsJournal_of_quiet).seq fun a _ => hf a

/-- The journal with one record replaced. -/
theorem replace_writes {journal : Journal} {record : RunRecord} (hjournal : journal.Fits)
    (h : record.Fits) : Writes (writeJournal (upsertRun journal record)) fun _ => True := by
  refine ⟨fun written heq => ?_, fun answer _ => upholds_raise fun _ _ => trivial⟩
  rw [← Op.writeJournal.inj heq]
  exact upsertRun_fits hjournal h

theorem save_writes (h : draft.Fits) : Writes (save draft) Draft.Fits := by
  have hjournal := upsertRun_fits h.journal h.record
  have hwrite : Writes (writeJournal (upsertRun draft.journal draft.record)) fun _ => True :=
    replace_writes h.journal h.record
  unfold save
  exact hwrite.seq fun _ _ => ⟨hjournal, h.record⟩

theorem readJournal_writes : Writes readJournal Journal.Fits :=
  ⟨fun _ heq => Op.noConfusion heq, fun _ hanswer => hanswer⟩

/-- One operation that is no write. -/
theorem writes_call_bind (op : Op) {f : α → Action β} {answerOf : op.Answer → Except Text α}
    {post : β → Prop} (hop : KeepsJournal op) (hf : ∀ a, Writes (f a) post) :
    Writes ((Prog.call op fun answer => raise (answerOf answer)) >>= f) post :=
  have hcall : Writes (Prog.call op fun answer => raise (answerOf answer)) fun _ => True :=
    ⟨fun journal heq => absurd heq (hop journal), fun _ _ => upholds_raise fun _ _ => trivial⟩
  hcall.seq fun a _ => hf a

theorem recordFor_writes {journal : Journal} (hjob : job.Fits) (h : journal.Fits) :
    Writes (recordFor job journal) RunRecord.Fits := by
  unfold recordFor
  cases hfind : findRun journal job.number with
  | some record => exact h.runs record (findRun_mem hfind).1
  | none =>
    refine writes_quiet_bind quiet_now fun startedAt => ?_
    refine writes_quiet_bind quiet_now fun updatedAt => ?_
    exact freshRecord_fits hjob startedAt updatedAt

theorem claim_writes (hjob : job.Fits) : Writes (claim job) Draft.Fits := by
  unfold claim
  refine writes_call_bind (.createLog job.number) nofun fun _ => ?_
  refine writes_quiet_bind (quiet_logLine _) fun _ => ?_
  refine writes_call_bind (.addLabels job.number [inProgressLabel]) nofun fun _ => ?_
  refine writes_call_bind (.removeLabel job.number readyLabel) nofun fun _ => ?_
  refine readJournal_writes.seq fun journal hjournal => ?_
  refine (recordFor_writes hjob hjournal).seq fun record hrecord => ?_
  exact save_writes ⟨hjournal, taken_fits hjob hrecord⟩

theorem fail_writes {detail : Text} (h : draft.Fits) :
    Writes (fail job draft detail) fun _ => True := by
  have hblocked : Draft.Fits ⟨draft.journal, givenUp draft.record⟩ :=
    ⟨h.journal, { h.record with }⟩
  unfold fail
  refine (save_writes hblocked).seq fun draft _ => ?_
  refine writes_quiet_bind (quiet_logLine _) fun _ => ?_
  refine writes_quiet_bind (quiet_removeLabel inProgressLabel_ne _) fun _ => ?_
  refine writes_quiet_bind (quiet_addLabels blockedLabel_ne _) fun _ => ?_
  exact writes_quiet_bind (quiet_comment _ _) fun _ => trivial

/-! ### A round -/

theorem codingPass_writes {round : ℕ} {lessons : Lessons} (hround : round ≤ 100) (h : draft.Fits) :
    Writes (codingPass job round draft lessons) fun result => result.1.Fits := by
  have hspent : ∀ attempt : Attempt, attempt.Fits →
      Draft.Fits ⟨draft.journal, spent draft.record round attempt⟩ := fun attempt hattempt =>
    ⟨h.journal, appendAttempt_fits { h.record with fixRounds := hround } hattempt⟩
  unfold codingPass
  refine writes_quiet_bind ⟨fun _ => rfl, fun _ => trivial⟩ fun _ => ?_
  refine writes_call_bind (.implement (codingTask job round lessons)) nofun fun coded => ?_
  refine writes_quiet_bind (quiet_logArtifact _ _) fun _ => ?_
  refine writes_quiet_bind quiet_now fun at_ => ?_
  refine (save_writes (hspent _ (codingAttempt_fits round at_ coded))).seq fun draft hdraft => ?_
  exact hdraft

/-- One more attempt on record. -/
theorem note_writes {attempt : Attempt} (h : draft.Fits) (hattempt : attempt.Fits) :
    Writes (save { draft with record := appendAttempt draft.record attempt }) Draft.Fits :=
  save_writes ⟨h.journal, appendAttempt_fits h.record hattempt⟩

theorem verifyPass_writes {round : ℕ} {change : Change} (h : draft.Fits) :
    Writes (verifyPass job round draft change) fun result => result.1.Fits := by
  unfold verifyPass
  refine writes_call_bind (.verify _) nofun fun verification => ?_
  refine writes_quiet_bind (quiet_logArtifact _ _) fun _ => ?_
  refine writes_quiet_bind quiet_now fun at_ => ?_
  refine Upholds.seq (note_writes h (List.length_take_le _ _)) fun draft hdraft => ?_
  exact hdraft

theorem reviewPass_writes {round required : ℕ} {change : Change} (hrequired : required ≤ 4)
    (h : draft.Fits) :
    Writes (reviewPass job round draft change required) fun result => result.1.Fits := by
  unfold reviewPass
  refine Upholds.seq ((writes_nothing ((gatherReviews_emits _ _ _).mono quiet_of_isReview)
    keepsJournal_of_quiet).returns (gatherReviews_usable _ _ _)) fun reviews hreviews => ?_
  refine writes_quiet_bind (quiet_logArtifact _ _) fun _ => ?_
  refine writes_quiet_bind quiet_now fun at_ => ?_
  refine Upholds.seq (note_writes h ?_) fun draft hdraft => ?_
  · exact reviewDetail_fits (hreviews.2.trans hrequired) hrequired
  · exact hdraft

variable [Host]

theorem reviewRound_writes {round : ℕ} {change : Change} {verification : VerificationOutcome}
    (h : draft.Fits) :
    Writes (reviewRound job round draft change verification) fun ending => ending.draft.Fits := by
  unfold reviewRound
  refine Upholds.seq (reviewPass_writes (job.deps.policy_reviewers _).2 h) fun result hresult => ?_
  dsimp only
  split
  · exact hresult
  · split
    · exact hresult
    · split
      · exact hresult
      · exact hresult
    · exact hresult

theorem classifyPass_writes (h : draft.Fits) :
    Writes (classifyPass job draft) fun result => result.1.Fits := by
  unfold classifyPass
  refine writes_quiet_bind ((changedFiles_emits _ _).mono quiet_of_isGit) fun files => ?_
  refine writes_quiet_bind ((git_emits _ _).mono quiet_of_isGit) fun rawDiff => ?_
  refine writes_quiet_bind ((proposedPolicy_emits _ _).mono ?_) fun headPolicy => ?_
  · rintro op rfl
    exact fun _ => rfl
  · split
    · trivial
    · refine writes_quiet_bind (quiet_logArtifact _ _) fun _ => ?_
      exact ⟨h.journal, { h.record with }⟩

theorem verifyRound_writes {round : ℕ} (h : draft.Fits) :
    Writes (verifyRound job round draft) fun ending => ending.draft.Fits := by
  unfold verifyRound
  refine Upholds.seq (classifyPass_writes h) fun classified hclassified => ?_
  refine Upholds.seq (verifyPass_writes hclassified) fun verified hverified => ?_
  dsimp only
  split
  · exact hverified
  · split
    · split
      · exact hverified
      · exact hverified
    · exact reviewRound_writes hverified

theorem runRound_writes {round : ℕ} {lessons : Lessons} (hround : round ≤ 100) (h : draft.Fits) :
    Writes (runRound job round draft lessons) fun ending => ending.draft.Fits := by
  unfold runRound
  refine Upholds.seq (codingPass_writes hround h) fun result hresult => ?_
  dsimp only
  split
  · exact hresult
  · refine writes_quiet_bind ((commitPass_emits job).mono quiet_of_isGit) fun ending => ?_
    split
    · exact hresult
    · exact verifyRound_writes hresult

theorem runRounds_writes (remaining : ℕ) :
    ∀ (round : ℕ) (draft : Draft) (lessons : Lessons), round + remaining ≤ 100 → draft.Fits →
      Writes (runRounds job remaining round draft lessons) fun ending => ending.draft.Fits := by
  induction remaining with
  | zero => exact fun round draft lessons _ h => h
  | succ remaining ih =>
    intro round draft lessons hround h
    unfold runRounds
    refine Upholds.seq (runRound_writes (by omega) h) fun ending hending => ?_
    split
    · exact ih (round + 1) _ _ (by omega) hending
    · exact hending

/-! ### The publication -/

variable [Unicode]

omit [Host] in
/-- GitHub has numbered the pull request. -/
theorem openPullRequest_writes (settled : Settled) :
    Writes (openPullRequest job settled) fun opened => Numbered opened.1 := by
  have hexisting : Writes (pullRequestForBranch job.branch) fun existing =>
      ∀ pr, existing = some pr → Numbered pr.number :=
    ⟨nofun, fun answer hanswer => upholds_raise fun existing hexisting pr hpr =>
      hanswer pr (by rw [hexisting, hpr])⟩
  have hcreated : ∀ input, Writes (createPullRequest input) Numbered := fun input =>
    ⟨nofun, fun answer hanswer => upholds_raise hanswer⟩
  unfold openPullRequest
  refine hexisting.seq fun existing hexisting => ?_
  split
  · rename_i pr hpr
    exact hexisting pr (Option.eq_some_of_filter_eq_some hpr)
  · refine (hcreated _).seq fun number hnumber => ?_
    exact hnumber

omit [Host] in
theorem handOver_writes {settled : Settled} (h : draft.Fits) :
    Writes (handOver job draft settled) fun _ => True := by
  unfold handOver
  refine (openPullRequest_writes settled).seq fun opened hopened => ?_
  dsimp only
  refine writes_quiet_bind quiet_now fun at_ => ?_
  have hpublished : Draft.Fits ⟨draft.journal,
      published draft.record settled.change.risk.risk at_ opened.1⟩ :=
    ⟨h.journal, published_fits h.record hopened⟩
  refine (save_writes hpublished).seq fun _ _ => ?_
  refine writes_quiet_bind (quiet_logLine _) fun _ => ?_
  refine writes_quiet_bind (quiet_removeLabel inProgressLabel_ne _) fun _ => ?_
  refine writes_quiet_bind (quiet_addLabels reviewLabel_ne _) fun _ => ?_
  refine writes_quiet_bind (emits_attempt ⟨fun _ => rfl, fun answer => emits_raise answer⟩)
    fun _ => ?_
  trivial

omit [Host] in
theorem publish_writes {settled : Settled} (h : draft.Fits) :
    Writes (publish job draft settled) fun _ => True := by
  unfold publish
  refine writes_quiet_bind (emits_attempt ((pushBranch_emits _ _ _).mono quiet_of_isGit))
    fun pushed => ?_
  split
  · exact fail_writes h
  · split
    · exact fail_writes h
    · exact handOver_writes h

theorem implementIssue_writes (h : draft.Fits) :
    Writes (implementIssue job draft) fun _ => True := by
  unfold implementIssue
  refine writes_quiet_bind ⟨fun _ => rfl, fun answer => emits_raise answer⟩ fun installed => ?_
  split
  · exact fail_writes h
  · split
    · exact fail_writes h
    · rename_i hleft
      have hmax : job.maxRounds ≤ 10 := job.deps.config.codingFixRounds_le.2
      refine (runRounds_writes _ _ _ _ (by omega) h).seq fun ending hending => ?_
      split
      · exact publish_writes hending
      · exact fail_writes hending
      · exact fail_writes hending

/-- Every journal a run of `workIssue` writes fits, as long as the branch and the worktree do. -/
theorem workJob_writes (hjob : job.Fits) : Writes (workJob job) fun _ => True := by
  unfold workJob
  refine (claim_writes hjob).seq fun draft hdraft => ?_
  refine writes_quiet_bind (emits_attempt ((prepare_emits job).mono quiet_of_isGit))
    fun prepared => ?_
  split
  · exact fail_writes hdraft
  · exact implementIssue_writes hdraft

end Parts

/-! ### What every journal of a run has on record -/

section Marks

variable {job : Job}

/-- The record is the issue's, with the branch and the worktree of this run. -/
structure Marked (job : Job) (record : RunRecord) : Prop where
  issue : record.issue = job.number
  branch : record.branch = job.branch
  worktree : record.worktree = job.worktree

def MarkedIn (job : Job) : Phase → Prop
  | .ready draft => Marked job draft.record
  | .invoked _ draft => Marked job draft.record
  | .working _ draft => Marked job draft.record
  | _ => True

theorem markedIn_after {phase : Phase} (ok : Bool) (h : MarkedIn job phase) :
    MarkedIn job (.after ok phase) := by
  cases ok with
  | true => exact h
  | false => trivial

/-- A transition keeps the mark, and what it writes has a record with it. -/
theorem trans_marked {a b : Phase} {v : WorkEvent} (htrans : Trans job a v b) (h : MarkedIn job a) :
    MarkedIn job b ∧
      ∀ journal ok, v = .wrote journal ok → ∃ run ∈ journal.runs, Marked job run := by
  have hwrote : ∀ {current : Journal} {record : RunRecord} {ok : Bool}, Marked job record →
      ∀ journal ok', WorkEvent.wrote (upsertRun current record) ok = .wrote journal ok' →
        ∃ run ∈ journal.runs, Marked job run := by
    intro current record ok hrecord journal ok' heq
    obtain ⟨rfl, -⟩ := WorkEvent.wrote.inj heq
    exact ⟨record, self_mem_upsertRun current record, hrecord⟩
  cases htrans with
  | claim ok => exact ⟨markedIn_after ok trivial, by simp⟩
  | unready ok => exact ⟨markedIn_after ok trivial, by simp⟩
  | read journal => exact ⟨trivial, by simp⟩
  | take journal record ok start =>
    have hmarked : Marked job (taken job record) := ⟨start.issue, rfl, rfl⟩
    exact ⟨markedIn_after ok hmarked, hwrote hmarked⟩
  | first draft left => exact ⟨h, by simp⟩
  | next round draft left => exact ⟨h, by simp⟩
  | spend round draft attempt ok fits =>
    have hmarked : Marked job (spent draft.record round attempt) := ⟨h.issue, h.branch, h.worktree⟩
    exact ⟨markedIn_after ok hmarked, hwrote hmarked⟩
  | note round draft risk attempt ok fits =>
    have hmarked : Marked job (noted draft.record risk attempt) := ⟨h.issue, h.branch, h.worktree⟩
    exact ⟨markedIn_after ok hmarked, hwrote hmarked⟩
  | refuse draft ok => exact ⟨trivial, hwrote ⟨h.issue, h.branch, h.worktree⟩⟩
  | giveUp round draft ok => exact ⟨trivial, hwrote ⟨h.issue, h.branch, h.worktree⟩⟩
  | publish round draft risk at_ number ok =>
    exact ⟨trivial, hwrote ⟨h.issue, h.branch, h.worktree⟩⟩

theorem at_marked {log : List WorkEvent} {phase : Phase} (h : At job log phase) :
    MarkedIn job phase ∧
      ∀ journal ok, .wrote journal ok ∈ log → ∃ run ∈ journal.runs, Marked job run := by
  induction h with
  | nil => exact ⟨trivial, by simp⟩
  | snoc _ last ih =>
    obtain ⟨hphase, hwrote⟩ := trans_marked last ih.1
    refine ⟨hphase, fun journal ok hmem => ?_⟩
    rcases List.mem_append.mp hmem with hmem | hmem
    · exact ih.2 journal ok hmem
    · exact hwrote journal ok (List.mem_singleton.mp hmem).symm

/-- A journal that fits was written for an issue whose record fits. -/
theorem fits_of_written [Host] [Unicode] {trace : List RunnerEvent}
    {outcome : Outcome Text IssueOutcome} (hrun : Run (workJob job) trace outcome)
    {event : RunnerEvent} (hevent : event ∈ trace) {journal : Journal}
    (hwrite : event.op = .writeJournal journal) (hfits : journal.Fits) : job.Fits := by
  obtain ⟨phase, hpath, -⟩ := workJob_follows job trace outcome hrun
  obtain ⟨op, answer⟩ := event
  obtain rfl : op = .writeJournal journal := hwrite
  have hmem : .wrote journal (succeeded answer) ∈ trace.filterMap workView :=
    List.mem_filterMap.mpr ⟨_, hevent, rfl⟩
  obtain ⟨run, hrunMem, hmarked⟩ := (at_marked hpath).2 journal _ hmem
  have hrecord := hfits.runs run hrunMem
  exact ⟨hmarked.issue ▸ hrecord.issue, hmarked.branch ▸ hrecord.branch,
    hmarked.worktree ▸ hrecord.worktree⟩

end Marks

/-! ### Pull requests that move -/

section Moves

variable {deps : RunnerDeps} {record : RunRecord}

theorem finishRun_writes (h : record.Fits) :
    Writes (finishRun deps record .done) fun _ => True := by
  unfold finishRun
  refine writes_quiet_bind ((removeOwnWorktree_emits deps record).mono quiet_of_isGit) fun _ => ?_
  exact readJournal_writes.seq fun journal hjournal => replace_writes hjournal { h with }

theorem blockRun_writes {detail : Text} (h : record.Fits) :
    Writes (blockRun deps record detail) fun _ => True := by
  have hreview : reviewLabel ≠ readyLabel := by simp [reviewLabel, readyLabel]
  have hblocked : RunRecord.Fits { record with status := .blocked } := { h with }
  unfold blockRun
  refine readJournal_writes.seq fun journal hjournal => ?_
  refine (replace_writes hjournal hblocked).seq fun _ _ => ?_
  refine writes_quiet_bind (quiet_removeLabel hreview _) fun _ => ?_
  refine writes_quiet_bind (quiet_addLabels blockedLabel_ne _) fun _ => ?_
  exact writes_nothing (quiet_comment _ _) keepsJournal_of_quiet

theorem countCiRound_writes (h : record.Fits) (hround : record.ciRounds + 1 ≤ 100) :
    Writes (countCiRound record) fun _ => True := by
  unfold countCiRound
  exact readJournal_writes.seq fun journal hjournal =>
    replace_writes hjournal { h with ciRounds := hround }

variable [Unicode]

omit [Unicode] in
theorem advanceFailing_writes {failing : List Text} (h : record.Fits) :
    Writes (advanceFailing deps record failing) fun _ => True := by
  unfold advanceFailing
  split
  · exact (blockRun_writes h).seq fun _ _ => trivial
  · rename_i hleft
    have hmax : deps.config.ciFixRounds ≤ 10 := deps.config.ciFixRounds_le.2
    exact (countCiRound_writes h (by omega)).seq fun _ _ => trivial

theorem advanceOpen_writes {number : ℕ} {pr : GhPullRequest} {mergeable : Mergeability}
    (h : record.Fits) : Writes (advanceOpen deps record number pr mergeable) fun _ => True := by
  unfold advanceOpen
  split
  · trivial
  · dsimp only
    split
    · trivial
    · trivial
    · exact advanceFailing_writes h
    · trivial

theorem advanceRun_writes (h : record.Fits) : Writes (advanceRun deps record) fun _ => True := by
  unfold advanceRun
  split
  · trivial
  · refine writes_quiet_bind ⟨fun _ => rfl, fun answer => emits_raise answer⟩ fun pr => ?_
    split
    · exact (finishRun_writes h).seq fun _ _ => trivial
    · split
      · exact (finishRun_writes h).seq fun _ _ => trivial
      · refine writes_quiet_bind ⟨fun _ => rfl, fun answer => emits_raise answer⟩
          fun mergeable => ?_
        split
        · refine writes_quiet_bind (emits_attempt ⟨fun _ => rfl, fun answer => emits_raise answer⟩)
            fun updated => ?_
          split
          · trivial
          · exact advanceOpen_writes h
        · exact advanceOpen_writes h

theorem advanceAll_writes (records : List RunRecord) :
    (∀ record ∈ records, record.Fits) → Writes (advanceAll deps records) fun _ => True := by
  induction records with
  | nil => exact fun _ => trivial
  | cons record rest ih =>
    intro h
    unfold advanceAll
    refine (advanceRun_writes (h record (by simp))).seq fun _ _ => ?_
    exact (ih fun r hr => h r (by simp [hr])).seq fun _ _ => trivial

/-- Every journal a run of `advance` writes fits. -/
theorem advance_writes : Writes (advance deps) fun _ => True := by
  unfold advance
  refine readJournal_writes.seq fun journal hjournal => ?_
  refine (advanceAll_writes _ fun record hrecord => ?_).seq fun _ _ => trivial
  exact hjournal.runs record (List.mem_of_mem_filter hrecord)

end Moves

/-! ### The calls that write the journal -/

section Calls

variable [Host] [Unicode]

/-- What `readJournal` makes of the file, when there is one. -/
def journalOf (file : Option Text) : Journal := (file.map parseJournal).getD emptyJournal

/-- What happens to the journal file.  A write that throws may leave anything behind; GitHub answers
with numbers it gives out. -/
def fileStep (file : Option Text) (event : RunnerEvent) (file' : Option Text) : Prop :=
  match event with
  | ⟨.readJournal, journal⟩ => journal = journalOf file ∧ file' = file
  | ⟨.writeJournal journal, answer⟩ => succeeded answer = true → file' = some (journalText journal)
  | ⟨.createPullRequest _, answer⟩ =>
      (∀ number, answer = .ok number → Numbered number) ∧ file' = file
  | ⟨.pullRequestForBranch _, answer⟩ =>
      (∀ pr, answer = .ok (some pr) → Numbered pr.number) ∧ file' = file
  | _ => file' = file

omit [Host] [Unicode] in
theorem journalOf_fits (file : Option Text) : (journalOf file).Fits := by
  cases file with
  | none => exact ⟨Nat.zero_le _, by simp [journalOf, emptyJournal]⟩
  | some text => exact parseJournal_fits text

omit [Unicode] in
/-- Whatever the file holds, what is read of it fits. -/
theorem fileStep_supports : Supports fileStep (fun _ => True) Sane WritesFitting := by
  intro file op answer file' _ _ hstep
  refine ⟨?_, trivial⟩
  cases op with
  | readJournal =>
    obtain ⟨rfl, -⟩ := hstep
    exact journalOf_fits file
  | createPullRequest input => exact hstep.1
  | pullRequestForBranch branch => exact hstep.1
  | _ => trivial

inductive JournalCall where
  | work (deps : RunnerDeps) (issue : IssueSummary) (options : WorkOptions)
  | move (deps : RunnerDeps)

def JournalCall.program : JournalCall → Action Unit
  | .work deps issue options => do
      let _ ← workIssue deps issue options
      .ret ()
  | .move deps => do
      let _ ← advance deps
      .ret ()

/-- The issue has a number, its title gives a branch the journal accepts, and its worktree lies at a
path the journal accepts. -/
def JournalCall.Bounded : JournalCall → Prop
  | .work deps issue _ => Numbered issue.number ∧
      (Cuttable (slugWords issue.title) ∨
        (slugWords issue.title).length + (decimal issue.number).length ≤ 242) ∧
      (worktreePath deps issue.number).length ≤ 4096
  | .move _ => True

theorem newJob_fits_iff {deps : RunnerDeps} {issue : IssueSummary} {options : WorkOptions} :
    (newJob deps issue options).Fits ↔ (JournalCall.work deps issue options).Bounded := by
  have hlength : Numbered issue.number → ((branchName issue.number issue.title).length ≤ 255 ↔
      Cuttable (slugWords issue.title) ∨
        (slugWords issue.title).length + (decimal issue.number).length ≤ 242) :=
    fun hnumber => branchName_length_le_iff (hnumber.2.trans_lt (by decide)) issue.title
  constructor
  · rintro ⟨hnumber, hbranch, hworktree⟩
    exact ⟨hnumber, (hlength hnumber).mp hbranch, hworktree⟩
  · rintro ⟨hnumber, hbranch, hworktree⟩
    exact ⟨hnumber, (hlength hnumber).mpr hbranch, hworktree⟩

theorem journalCall_writes (call : JournalCall) (h : call.Bounded) :
    Writes call.program fun _ => True := by
  cases call with
  | work deps issue options => exact (workJob_writes (newJob_fits_iff.mpr h)).seq fun _ _ => trivial
  | move deps => exact advance_writes.seq fun _ _ => trivial

theorem bounded_of_written {call : JournalCall} {trace : List RunnerEvent}
    {outcome : Outcome Text Unit} (hrun : Run call.program trace outcome) {event : RunnerEvent} (hevent : event ∈ trace)
    {journal : Journal} (hwrite : event.op = .writeJournal journal) (hfits : journal.Fits) :
    call.Bounded := by
  cases call with
  | work deps issue options =>
    obtain ⟨outcome, hwork⟩ : ∃ outcome, Run (workIssue deps issue options) trace outcome := by
      rcases run_bind hrun with ⟨a, before, after, rfl, hbefore, hafter⟩ | ⟨e, -, h⟩ | ⟨-, h⟩
      · cases hafter
        rw [List.append_nil]
        exact ⟨_, hbefore⟩
      · exact ⟨_, h⟩
      · exact ⟨_, h⟩
    exact newJob_fits_iff.mp (fits_of_written hwork hevent hwrite hfits)
  | move deps => trivial

/-- **When a journal that is written is read back.**  Whatever the file held at first, and wherever
the calls were interrupted, a journal they wrote reads back as it was written exactly when the call
was for an issue with a bounded title and worktree. -/
theorem written_readBack_iff {start file : Option Text}
    {made : List (Made JournalCall Op Op.Answer Text Unit)}
    (h : History fileStep JournalCall.program start made file) :
    ∀ m ∈ made, ∀ event ∈ m.trace, ∀ journal : Journal, event.op = .writeJournal journal →
      (readBack journal = journal ↔ m.call.Bounded) := by
  intro m hm event hevent journal hwrite
  obtain ⟨t, u, hrun, hsteps⟩ := h.ran m hm
  rw [readBack_eq_iff]
  constructor
  · exact bounded_of_written hrun hevent hwrite
  · intro hbounded
    have hwork := journalCall_writes m.call hbounded
    obtain ⟨hwrites, -⟩ := hwork.steps fileStep_supports hrun t u trivial hsteps
    exact hwrites event hevent journal hwrite

/-! ### A run in which everything goes well -/

/-- The world in which everything goes well, and the journal is a file. -/
def calmFile (file : Option Text) (op : Op) : Option (op.Answer × Option Text) :=
  match op with
  | .readJournal => some (journalOf file, file)
  | .writeJournal journal => some (.ok (), some (journalText journal))
  | op => some (calm op, file)

omit [Unicode] in
theorem calmFile_step {file file' : Option Text} {op : Op} {answer : op.Answer}
    (h : calmFile file op = some (answer, file')) : fileStep file ⟨op, answer⟩ file' := by
  cases op <;> cases h
  case readJournal => exact ⟨rfl, rfl⟩
  case writeJournal journal => exact fun _ => rfl
  case createPullRequest input =>
    refine ⟨fun number hnumber => ?_, rfl⟩
    obtain rfl : 7 = number := Except.ok.inj hnumber
    exact ⟨by decide, by decide⟩
  case pullRequestForBranch branch =>
    refine ⟨fun pr hpr => ?_, rfl⟩
    have hnone : (.ok none : Except Text (Option GhPullRequest)) = .ok (some pr) := hpr
    cases hnone
  all_goals rfl

/-- The call of `workIssue` for a first issue with the title. -/
def titledCall (title : Text) : JournalCall :=
  .work sampleDeps ⟨1, title, .opened, [readyLabel], none⟩ ⟨0, none⟩

/-- It is made where there is no journal. -/
def titledWork (title : Text) : List (Made JournalCall Op Op.Answer Text Unit) × Option Text :=
  playAll JournalCall.program [(titledCall title, calmFile)] none

theorem titledWork_history (title : Text) :
    History fileStep JournalCall.program none (titledWork title).1 (titledWork title).2 :=
  history_playAll id [(titledCall title, calmFile)] [] none .nil fun call hcall _ _ _ _ h => by
    obtain rfl := List.mem_singleton.mp hcall
    exact calmFile_step h

end Calls

/-- The journal an operation writes. -/
def Op.written : Op → Option Journal
  | .writeJournal journal => some journal
  | _ => none

theorem Op.written_eq_some {op : Op} {journal : Journal} (h : op.written = some journal) :
    op = .writeJournal journal := by
  cases op <;> simp only [Op.written, Option.some.injEq, reduceCtorEq] at h
  case writeJournal written => rw [h]

/-- The run of such a call writes the journal. -/
theorem titledWork_writes (title : Text)
    (h : ((@titledWork asciiHost asciiUnicode title).1.any fun m =>
      m.trace.any fun event => event.op.written.isSome) = true) :
    ∃ m ∈ (@titledWork asciiHost asciiUnicode title).1, ∃ event ∈ m.trace, ∃ journal,
      event.op = .writeJournal journal := by
  obtain ⟨m, hm, hany⟩ := List.any_eq_true.mp h
  obtain ⟨event, hevent, hsome⟩ := List.any_eq_true.mp hany
  obtain ⟨journal, hjournal⟩ := Option.isSome_iff_exists.mp hsome
  exact ⟨m, hm, event, hevent, journal, Op.written_eq_some hjournal⟩

theorem written_readBack_sample :
    ∃ m ∈ (@titledWork asciiHost asciiUnicode (lit "Fix")).1, ∃ event ∈ m.trace,
      ∃ journal : Journal, event.op = .writeJournal journal ∧ @readBack asciiHost journal = journal := by
  obtain ⟨m, hm, event, hevent, journal, hwrite⟩ :=
    titledWork_writes (lit "Fix") (by decide +kernel)
  have hbounded : @JournalCall.Bounded asciiHost asciiUnicode m.call := by
    obtain rfl := List.mem_singleton.mp hm
    exact ⟨⟨by decide, by decide⟩, by decide +kernel, by decide +kernel⟩
  have hhistory := @titledWork_history asciiHost asciiUnicode (lit "Fix")
  have hiff := @written_readBack_iff asciiHost asciiUnicode _ _ _ hhistory m hm event hevent journal
    hwrite
  exact ⟨m, hm, event, hevent, journal, hwrite, hiff.mpr hbounded⟩

/-- A title of one word, too long for the journal. -/
def longTitle : Text := List.replicate 256 97

/-- The journal written for such a title does not read back. -/
theorem long_title_lost :
    ∃ made file, @History Op Op.Answer Text Unit JournalCall (Option Text) (@fileStep asciiHost)
        (@JournalCall.program asciiHost asciiUnicode) none made file ∧
      ∃ m ∈ made, ∃ event ∈ m.trace, ∃ journal : Journal,
        event.op = .writeJournal journal ∧ @readBack asciiHost journal ≠ journal := by
  obtain ⟨m, hm, event, hevent, journal, hwrite⟩ :=
    titledWork_writes longTitle (by decide +kernel)
  have hhistory := @titledWork_history asciiHost asciiUnicode longTitle
  refine ⟨_, _, hhistory, m, hm, event, hevent, journal, hwrite, fun hback => ?_⟩
  obtain ⟨t, u, hrun, -⟩ := hhistory.ran m hm
  have hfits := (@readBack_eq_iff asciiHost journal).mp hback
  have hbounded := @bounded_of_written asciiHost asciiUnicode _ _ _ hrun _ hevent _ hwrite hfits
  obtain rfl := List.mem_singleton.mp hm
  exact absurd hbounded.2.1 (by decide +kernel)

end Newsdeck.Runner

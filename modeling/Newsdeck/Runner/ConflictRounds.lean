import Newsdeck.Runner.Records
import Newsdeck.Runner.Rehearsal

/-!
# How often a conflict resumes an issue

`resumable` compares the record's `conflictRounds` with the configured limit, and nothing ever
counts `conflictRounds` up.  So the limit stops nobody: an issue is resumed as often as a call comes
upon its pull request in conflict.

* `mayResume` — what GitHub shows, the journal and the configuration make of a call;
* `plan_conflict` — what one call of `runOnce` decides;
* `history_conflict` — over every sequence of calls, the resumptions are the conflicts found;
* `once_uncounted` — every record keeps the `conflictRounds` it was created with.
-/

namespace Newsdeck.Runner

open Ecma Loop Effects Effects.Prog

/-- Nothing has been counted. -/
def Uncounted (record : RunRecord) : Prop := record.conflictRounds = 0

theorem rewritten_uncounted {job : Job} (current : Journal) (record : RunRecord)
    (h : AllRuns Uncounted current) (hrecord : Rewritten job current record) :
      Uncounted record := by
  cases hrecord with
  | taken record start =>
    rcases start with hfind | ⟨-, startedAt, updatedAt, rfl⟩
    · exact h record (findRun_mem hfind).1
    · rfl
  | spent record mem => exact h record mem
  | noted record mem => exact h record mem
  | givenUp record mem => exact h record mem
  | published record mem => exact h record mem

/-- What GitHub shows while a call runs. -/
structure GitHubState where
  pullRequest : ℕ → Except Text GhPullRequest
  mergeability : ℕ → Except Text Mergeability
  issue : ℕ → Except Text GhIssue

/-- The event is answered as GitHub shows it; the other operations are answered by whatever else
there is. -/
def GitHubState.Answers (github : GitHubState) : RunnerEvent → Prop
  | ⟨.pullRequest number, answer⟩ => answer = github.pullRequest number
  | ⟨.mergeability number, answer⟩ => answer = github.mergeability number
  | ⟨.issue number, answer⟩ => answer = github.issue number
  | _ => True

/-- One call of `runOnce`, and what GitHub shows meanwhile. -/
structure Visit where
  skip : Option (List ℕ)
  github : GitHubState

/-- A call that was made. -/
abbrev OnceMade := Made Visit Op Op.Answer Text OnceResult

/-- The journal the call read. -/
def journalRead : List RunnerEvent → Option Journal
  | ⟨.readJournal, journal⟩ :: _ => some journal
  | _ => none

section Found

variable [Unicode]

/-- GitHub shows the pull request of the record open and in conflict. -/
def GitHubState.conflicted (github : GitHubState) (record : RunRecord) : Bool :=
  match record.pullRequest with
  | none => false
  | some number =>
    match github.pullRequest number, github.mergeability number with
    | .ok pr, .ok .conflicted => !pr.isSettled
    | _, _ => false

/-- The record is of the issue, its pull request is in conflict, its attempts at conflicts are not
used up, and GitHub shows the issue. -/
def mayResumeRecord (config : RunnerConfig) (github : GitHubState) (number : ℕ)
    (record : RunRecord) : Bool :=
  decide (record.issue = number) && github.conflicted record &&
    decide (record.conflictRounds < config.conflictRounds) && succeeded (github.issue number)

/-- It is so for the record that is first in flight. -/
def mayResume (config : RunnerConfig) (github : GitHubState) (number : ℕ)
    (journal : Journal) : Bool :=
  match inFlight journal with
  | record :: _ => mayResumeRecord config github number record
  | [] => false

/-- The call comes upon the conflict: it was so by the journal it read, and the call was not cut off
before it had read the journal, the pull request, its mergeability and the issue. -/
def comesUpon (config : RunnerConfig) (number : ℕ) (made : OnceMade) : Bool :=
  (journalRead made.trace).any (mayResume config made.call.github number) &&
    decide (4 ≤ made.trace.length)

/-- How many of the calls came upon it. -/
def conflictsFound (config : RunnerConfig) (number : ℕ) (made : List OnceMade) : ℕ :=
  made.countP (comesUpon config number)

end Found

def Plan.resumesConflict (number : ℕ) : Plan → Bool
  | .resume issue _ resumption => issue.number = number && resumption.reason = some .conflict
  | _ => false

section Plans

variable [Host] [Unicode] (deps : RunnerDeps)

/-- The call decided to resume the issue because of a conflict. -/
def ResumedForConflict (number : ℕ) (made : OnceMade) : Prop :=
  ∃ decision, Returned (plan deps made.call.skip) made.trace decision ∧
    decision.resumesConflict number = true

/-- How many of the calls resumed the issue because of a conflict. -/
noncomputable def conflictResumptions (number : ℕ) (made : List OnceMade) : ℕ := by
  classical
  exact made.countP fun call => ResumedForConflict deps number call

end Plans

/-! ### One call -/

/-- The journal moves with the events, and GitHub answers as it shows itself. -/
def visitStep (github : GitHubState) (s : Journal) (event : RunnerEvent) (s' : Journal) : Prop :=
  journalStep Fallible s event s' ∧ github.Answers event

theorem steps_visit {github : GitHubState} {s t : Journal} {trace : List RunnerEvent}
    (hsteps : Steps (journalStep Fallible) s trace t)
    (hanswers : ∀ event ∈ trace, github.Answers event) : Steps (visitStep github) s trace t := by
  induction hsteps with
  | nil s => exact .nil s
  | cons first _ ih =>
    have hrest := ih fun event hevent => hanswers event (List.mem_cons_of_mem _ hevent)
    exact .cons ⟨first, hanswers _ List.mem_cons_self⟩ hrest

section Call

variable {deps : RunnerDeps} {number : ℕ} {github : GitHubState} {s : Journal}
  {log : List RunnerEvent}

/-- The call was cut off too early. -/
abbrev Early (w : Journal × List RunnerEvent) : Prop := w.2.length < 4

theorem noted_keeps {op : Op} {answer : op.Answer} {w : Journal × List RunnerEvent}
    (hop : KeepsJournal op) (h : Noted (visitStep github) (s, log) ⟨op, answer⟩ w) :
    w = (s, log ++ [⟨op, answer⟩]) :=
  Prod.ext (journalStep_keeps hop h.1.1) h.2

theorem judgeChecks_reason [Unicode] (config : RunnerConfig) (record : RunRecord) (number : ℕ)
    (pr : GhPullRequest) : (judgeChecks config record number pr).reason ≠ some .conflict := by
  unfold judgeChecks
  dsimp only
  split
  · simp
  · split <;> simp

theorem judgeOpen_reason [Unicode] (config : RunnerConfig) (record : RunRecord) (number : ℕ)
    (pr : GhPullRequest) (mergeable : Mergeability) :
    (judgeOpen config record number pr mergeable).reason = some .conflict ↔
      mergeable = .conflicted ∧ record.conflictRounds < config.conflictRounds := by
  unfold judgeOpen
  split
  · rename_i hconflicted
    split
    · rename_i hspent
      exact iff_of_false (by simp) fun h => absurd h.2 (Nat.not_lt.mpr hspent)
    · rename_i hleft
      exact iff_of_true rfl ⟨hconflicted, Nat.lt_of_not_le hleft⟩
  · rename_i hclean
    exact iff_of_false (judgeChecks_reason _ _ _ _) fun h => hclean h.1

/-- Only a record whose pull request is in conflict is resumed for a conflict, and by then it has
been asked for twice. -/
theorem resumable_conflict [Host] [Unicode] {record : RunRecord} (hlog : log.length = 1) :
    Ensures (Noted (visitStep github)) Early (fun _ _ => github.conflicted record = false)
      (resumable deps record) (s, log)
      fun resumption w => w.1 = s ∧ w.2.length ≤ 3 ∧
        (resumption.reason = some .conflict ↔ github.conflicted record = true ∧
          record.conflictRounds < deps.config.conflictRounds) ∧
        (resumption.reason = some .conflict → w.2.length = 3) := by
  unfold resumable
  cases hnumber : record.pullRequest with
  | none =>
    refine ensures_ret ⟨rfl, ?_, ?_, by simp⟩
    · show log.length ≤ 3
      omega
    · simp [GitHubState.conflicted, hnumber]
  | some pull =>
    refine ensures_bind (ensures_call ?_ fun answer w hstep => ?_)
    · show log.length < 4
      omega
    have hanswer : answer = github.pullRequest pull := hstep.1.2
    obtain rfl := noted_keeps (fun _ hop => Op.noConfusion hop) hstep
    have hlog' : (log ++ [(⟨.pullRequest pull, answer⟩ : RunnerEvent)]).length = 2 := by
      rw [List.length_append, hlog]
      rfl
    subst hanswer
    refine ensures_raise (fun pr hpr => ?_) fun e he => by
      simp [GitHubState.conflicted, hnumber, he]
    split
    · rename_i hsettled
      refine ensures_ret ⟨rfl, by simp [hlog], iff_of_false (by simp) fun h => ?_, by simp⟩
      have hopen := h.1
      rw [GitHubState.conflicted, hnumber] at hopen
      simp only [hpr] at hopen
      cases hmergeable : github.mergeability pull with
      | error e => simp [hmergeable] at hopen
      | ok mergeable => cases mergeable <;> simp [hmergeable, hsettled] at hopen
    · rename_i hopen
      refine ensures_bind (ensures_call ?_ fun answer w hstep => ?_)
      · exact Nat.lt_of_le_of_lt hlog'.le (by decide)
      have hanswer : answer = github.mergeability pull := hstep.1.2
      obtain rfl := noted_keeps (fun _ hop => Op.noConfusion hop) hstep
      subst hanswer
      have hthree : (log ++ [(⟨.pullRequest pull, github.pullRequest pull⟩ : RunnerEvent)] ++
          [(⟨.mergeability pull, github.mergeability pull⟩ : RunnerEvent)]).length = 3 := by
        rw [List.length_append, hlog']
        rfl
      refine ensures_raise (fun mergeable hmergeable =>
        ensures_ret ⟨rfl, hthree.le, ?_, fun _ => hthree⟩)
        fun e he => ?_
      · rw [judgeOpen_reason]
        cases mergeable <;> simp [GitHubState.conflicted, hnumber, hpr, hmergeable, hopen]
      · simp [GitHubState.conflicted, hnumber, hpr, he]

variable [Host] [Unicode]

theorem planResume_conflict {record : RunRecord} (hlog : log.length = 1) :
    Ensures (Noted (visitStep github)) Early
      (fun _ _ => mayResumeRecord deps.config github number record = false)
      (planResume deps record) (s, log)
      fun decision w => w.1 = s ∧
        (decision.resumesConflict number = true ↔
          mayResumeRecord deps.config github number record = true) ∧
        (decision.resumesConflict number = true → 4 ≤ w.2.length) := by
  unfold planResume
  have hclean : ∀ (e : Text) (w : Journal × List RunnerEvent), github.conflicted record = false →
      mayResumeRecord deps.config github number record = false := by
    intro e w hclean
    simp [mayResumeRecord, hclean]
  refine ensures_bind ((resumable_conflict hlog).mono ?_ hclean fun _ hearly => hearly)
  rintro resumption ⟨s', log'⟩ ⟨hs, hlength, hreason, hthree⟩
  obtain rfl : s' = s := hs
  have hlength : log'.length ≤ 3 := hlength
  have hthree : resumption.reason = some .conflict → log'.length = 3 := hthree
  split
  · rename_i hidle
    refine ensures_ret ⟨rfl, iff_of_false Bool.false_ne_true fun h => ?_, nofun⟩
    simp only [mayResumeRecord, Bool.and_eq_true, decide_eq_true_eq] at h
    have hconflict := hreason.mpr ⟨h.1.1.2, h.1.2⟩
    simp [Resumption.actionable, hconflict] at hidle
  · refine ensures_bind (ensures_call ?_ fun answer w hstep => ?_)
    · show log'.length < 4
      omega
    have hnumber := hstep.1.1.1
    have hanswer : answer = github.issue record.issue := hstep.1.2
    obtain rfl := noted_keeps (fun _ hop => Op.noConfusion hop) hstep
    refine ensures_raise (fun issue hissue => ensures_ret ⟨rfl, ?_, fun h => ?_⟩) fun e he => ?_
    · have hrecord : issue.number = record.issue := hnumber issue hissue
      have hshown : github.issue record.issue = .ok issue := hanswer.symm.trans hissue
      simp only [Plan.resumesConflict, toSummary, hrecord, mayResumeRecord, Bool.and_eq_true,
        decide_eq_true_eq, hreason]
      constructor
      · rintro ⟨rfl, hconflicted, hleft⟩
        refine ⟨⟨⟨rfl, hconflicted⟩, hleft⟩, ?_⟩
        rw [hshown]
        rfl
      · rintro ⟨⟨⟨hown, hconflicted⟩, hleft⟩, -⟩
        exact ⟨hown, hconflicted, hleft⟩
    · simp only [Plan.resumesConflict, Bool.and_eq_true, decide_eq_true_eq] at h
      simp [hthree h.2]
    · by_cases hown : record.issue = number
      · have hunshown : succeeded (github.issue number) = false := by
          rw [← hown, ← hanswer, he]
          rfl
        show (_ && _) = false
        rw [hunshown, Bool.and_false]
      · show (decide _ && _ && _ && _) = false
        rw [decide_eq_false hown]
        rfl

theorem plan_conflict {skip : Option (List ℕ)} :
    Ensures (Noted (visitStep github)) Early
      (fun _ _ => mayResume deps.config github number s = false)
      (plan deps skip) (s, [])
      fun decision w => w.1 = s ∧
        (decision.resumesConflict number = true ↔
          mayResume deps.config github number s = true) ∧
        (decision.resumesConflict number = true → 4 ≤ w.2.length) := by
  unfold plan
  refine ensures_bind (ensures_call (show 0 < 4 by decide) fun journal w hstep => ensures_ret ?_)
  obtain rfl : journal = s := hstep.1.1.1
  obtain rfl := noted_keeps (fun _ hop => Op.noConfusion hop) hstep
  have hlog : ([] ++ [(⟨.readJournal, journal⟩ : RunnerEvent)]).length = 1 := rfl
  unfold mayResume
  cases inFlight journal with
  | cons record rest => exact planResume_conflict hlog
  | nil =>
    refine ensures_bind (ensures_call (show 1 < 4 by decide) fun answer w hstep => ?_)
    obtain rfl := noted_keeps (fun _ hop => Op.noConfusion hop) hstep
    refine ensures_raise (fun listed _ => ?_) fun _ _ => rfl
    dsimp only
    split
    · exact ensures_ret ⟨rfl, iff_of_false Bool.false_ne_true Bool.false_ne_true, nofun⟩
    · exact ensures_ret ⟨rfl, iff_of_false Bool.false_ne_true Bool.false_ne_true, nofun⟩

/-- The first thing a call does is to read the journal. -/
theorem journalRead_once {skip : Option (List ℕ)} {trace : List RunnerEvent} {t : Journal}
    {outcome : Outcome Text OnceResult} (hrun : Run (runOnce deps skip) trace outcome)
    (hsteps : Steps (journalStep Fallible) s trace t) (htrace : trace ≠ []) :
    journalRead trace = some s := by
  cases hrun with
  | interrupt => exact absurd rfl htrace
  | call op next answer rest outcome hrest =>
    cases hsteps with
    | cons first rest =>
      obtain ⟨hread, -⟩ : answer = s ∧ _ := first
      exact congrArg some hread

end Call

/-! ### Every sequence of calls -/

section Calls

variable [Host] [Unicode] {number : ℕ} {deps : RunnerDeps} {s t : Journal}
    {trace : List RunnerEvent}

theorem carryOut_uncounted {decision : Plan} (hzero : AllRuns Uncounted s) :
    Ensures (journalStep Fallible) (AllRuns Uncounted) (fun _ => AllRuns Uncounted)
      (carryOut deps decision) s fun _ => AllRuns Uncounted := by
  have hwork : ∀ issue options, Ensures (journalStep Fallible) (AllRuns Uncounted)
      (fun _ => AllRuns Uncounted)
      (workIssue deps issue options >>= fun outcome => .ret (onceResult outcome)) s
      fun _ => AllRuns Uncounted := fun issue options =>
    ensures_bind ((workJob_records allRuns_fallible rewritten_uncounted hzero).weaken
      fun _ _ h => ensures_ret h)
  cases decision with
  | report result => exact ensures_ret hzero
  | resume issue startRound resumption => exact hwork _ _
  | start issue => exact hwork _ _

/-- A decision that was not made resumes nothing. -/
theorem not_resumed {visit : Visit} {outcome : Outcome Text OnceResult}
    {ending : Outcome Text Plan} (hrun : Run (plan deps visit.skip) trace ending)
    (hending : ∀ decision, ending ≠ .returned decision) :
    ¬ ResumedForConflict deps number ⟨visit, trace, outcome⟩ := by
  rintro ⟨decision, hreturned, -⟩
  exact hending decision (returned_unique hreturned hrun)

/-- One call resumes the issue because of a conflict exactly when it comes upon one. -/
theorem once_conflict {visit : Visit} {outcome : Outcome Text OnceResult}
    (hrun : Run (runOnce deps visit.skip) trace outcome)
    (hsteps : Steps (journalStep Fallible) s trace t)
    (hanswers : ∀ event ∈ trace, visit.github.Answers event) :
    ResumedForConflict deps number ⟨visit, trace, outcome⟩ ↔
      comesUpon deps.config number ⟨visit, trace, outcome⟩ = true := by
  have hfound : comesUpon deps.config number ⟨visit, trace, outcome⟩ = true ↔
      mayResume deps.config visit.github number s = true ∧ 4 ≤ trace.length := by
    unfold comesUpon
    by_cases htrace : trace = []
    · simp [htrace, journalRead]
    · simp [journalRead_once hrun hsteps htrace]
  rw [hfound]
  have hvisit := steps_visit hsteps hanswers
  rcases run_bind hrun with ⟨decision, before, after, rfl, hplan, hwork⟩ | ⟨e, rfl, hplan⟩ |
    ⟨rfl, hplan⟩
  · obtain ⟨m, hbefore, -⟩ := hvisit.split
    obtain ⟨-, hiff, hlate⟩ :=
      @plan_conflict deps number visit.github s _ _ visit.skip _ _ _ hplan (steps_noted hbefore [])
    have hlate : decision.resumesConflict number = true → 4 ≤ before.length := hlate
    have hdecided : ResumedForConflict deps number ⟨visit, before ++ after, outcome⟩ ↔
        decision.resumesConflict number = true := by
      constructor
      · rintro ⟨found, hreturned, hfound⟩
        rwa [returned_eq hreturned hplan] at hfound
      · exact fun h => ⟨decision, ⟨before, after, rfl, hplan⟩, h⟩
    rw [hdecided, List.length_append]
    constructor
    · exact fun h => ⟨hiff.mp h, (hlate h).trans (Nat.le_add_right _ _)⟩
    · exact fun h => hiff.mpr h.1
  · have hclean : mayResume deps.config visit.github number s = false :=
      plan_conflict _ _ _ hplan (steps_noted hvisit [])
    refine iff_of_false (not_resumed hplan (by simp)) fun h => ?_
    exact absurd h.1 (by simp [hclean])
  · have hearly : trace.length < 4 :=
      @plan_conflict deps number visit.github s _ _ visit.skip _ _ _ hplan (steps_noted hvisit [])
    exact iff_of_false (not_resumed hplan (by simp)) fun h => absurd h.2 (Nat.not_le.mpr hearly)

/-- No call counts anything. -/
theorem once_uncounted {skip : Option (List ℕ)} (hzero : AllRuns Uncounted s) :
    Ensures (journalStep Fallible) (AllRuns Uncounted) (fun _ => AllRuns Uncounted)
      (runOnce deps skip) s fun _ => AllRuns Uncounted := by
  refine ensures_bind ((ensures_emits (· = s) (plan_emits deps skip) ?_ rfl).mono ?_ ?_ ?_)
  · intro op answer s' s'' hop hs hstep
    rw [journalStep_keeps (keepsJournal_of_planOp op hop) hstep, hs]
  · rintro decision _ rfl
    exact carryOut_uncounted hzero
  · rintro _ _ rfl
    exact hzero
  · rintro _ rfl
    exact hzero

/-- The calls of the history keep what one call keeps. -/
theorem history_uncounted {start : Journal} {made : List OnceMade}
    (hstart : AllRuns Uncounted start) (h : History (journalStep Fallible)
    (fun visit : Visit => runOnce deps visit.skip) start made s) :
    (∀ m ∈ made, ∀ journal, journalRead m.trace = some journal → AllRuns Uncounted journal) ∧
      AllRuns Uncounted s := by
  induction h with
  | nil => exact ⟨by simp, hstart⟩
  | snoc before visit trace outcome run steps ih =>
    refine ⟨fun m hm journal hread => ?_, ?_⟩
    · rcases List.mem_append.mp hm with hm | hm
      · exact ih.1 m hm journal hread
      · obtain rfl := List.mem_singleton.mp hm
        have htrace : trace ≠ [] := by
          rintro rfl
          simp [journalRead] at hread
        rw [journalRead_once run steps htrace] at hread
        exact Option.some.inj hread ▸ ih.2
    · have hmeets := once_uncounted ih.2 trace outcome _ run steps
      cases outcome <;> exact hmeets

theorem history_conflict {start : Journal} {made : List OnceMade}
    (h : History (journalStep Fallible) (fun visit : Visit => runOnce deps visit.skip) start made s)
    (hanswers : ∀ m ∈ made, ∀ event ∈ m.trace, m.call.github.Answers event) :
    conflictResumptions deps number made = conflictsFound deps.config number made := by
  induction h with
  | nil => rfl
  | snoc before visit trace outcome run steps ih =>
    have hcount := ih fun m hm => hanswers m (List.mem_append_left _ hm)
    have hiff : ResumedForConflict deps number ⟨visit, trace, outcome⟩ ↔
        comesUpon deps.config number ⟨visit, trace, outcome⟩ = true :=
      once_conflict run steps (hanswers ⟨visit, trace, outcome⟩ (by simp))
    unfold conflictResumptions conflictsFound at hcount ⊢
    rw [List.countP_append, List.countP_append, hcount, List.countP_singleton,
      List.countP_singleton]
    by_cases hfound : comesUpon deps.config number ⟨visit, trace, outcome⟩ = true
    · rw [if_pos hfound, if_pos (by simpa using hiff.mpr hfound)]
    · rw [if_neg hfound, if_neg (by simpa using fun h => hfound (hiff.mp h))]

/-- **Resumptions for a conflict.**  In every sequence of calls of `runOnce`, whatever GitHub shows
during each, an issue is resumed because of a conflict at most `conflictRounds` times exactly when
no more of the calls than that come upon its pull request in conflict.  The attempts at conflicts
are never used up: where no journal counted any at first, no call reads one that did. -/
theorem conflict_resumptions_iff (deps : RunnerDeps) (start s : Journal) (made : List OnceMade)
    (number : ℕ)
    (h : History (journalStep Fallible) (fun visit : Visit => runOnce deps visit.skip) start made s)
    (hanswers : ∀ m ∈ made, ∀ event ∈ m.trace, m.call.github.Answers event) :
    (conflictResumptions deps number made ≤ deps.config.conflictRounds ↔
        conflictsFound deps.config number made ≤ deps.config.conflictRounds) ∧
      (AllRuns Uncounted start → ∀ m ∈ made, ∀ journal, journalRead m.trace = some journal →
        AllRuns Uncounted journal) := by
  refine ⟨?_, fun hstart => (history_uncounted hstart h).1⟩
  rw [history_conflict h hanswers]

end Calls

/-! ### A pull request that stays in conflict -/

/-- GitHub shows the pull request open and in conflict. -/
def conflictedGitHub : GitHubState where
  pullRequest number := .ok ⟨number, lit "OPEN", none, none⟩
  mergeability _ := .ok .conflicted
  issue number := .ok (sampleIssue number)

/-- Everything goes well but for the conflict. -/
def conflicted : Script := fun _ op =>
  match op with
  | .mergeability _ => some (.ok .conflicted)
  | op => some (calm op)

theorem conflicted_honest : conflicted.Honest := by
  intro journal number issue hissue
  cases hissue
  rfl

theorem conflicted_answers {s s' : Journal} {event : RunnerEvent}
    (h : rehearse conflicted s event.op = some (event.answer, s')) :
      conflictedGitHub.Answers event := by
  obtain ⟨op, answer⟩ := event
  cases op <;> first
    | exact trivial
    | exact (congrArg Prod.fst (Option.some.inj h)).symm

/-- So many calls, one after the other. -/
def conflictedCalls (calls : ℕ) : List (Visit × Script) :=
  List.replicate calls (⟨none, conflictedGitHub⟩, conflicted)

/-- What they did. -/
def conflictedMade (calls : ℕ) : List OnceMade :=
  (@rehearsed _ _ (fun visit : Visit => @runOnce asciiHost asciiUnicode sampleDeps visit.skip)
    (conflictedCalls calls) emptyJournal).1

theorem conflictedMade_history (calls : ℕ) :
    ∃ s, History (journalStep Fallible)
      (fun visit : Visit => @runOnce asciiHost asciiUnicode sampleDeps visit.skip) emptyJournal
      (conflictedMade calls) s := by
  refine ⟨_, rehearsed_history _ (conflictedCalls calls) emptyJournal (fun _ => .inl rfl) ?_⟩
  intro call hcall
  rw [List.eq_of_mem_replicate hcall]
  exact conflicted_honest

theorem conflictedMade_answers (calls : ℕ) :
    ∀ m ∈ conflictedMade calls, ∀ event ∈ m.trace, m.call.github.Answers event := by
  intro m hm event hevent
  obtain ⟨call, hcall, hvisit, hanswered⟩ := mem_rehearsed _ hm
  obtain ⟨s, s', hevent⟩ := hanswered event hevent
  rw [List.eq_of_mem_replicate hcall] at hvisit hevent
  rw [hvisit]
  exact conflicted_answers hevent

theorem conflictedMade_found :
    @conflictsFound asciiUnicode sampleDeps.config 1 (conflictedMade 2) = 1 ∧
      @conflictsFound asciiUnicode sampleDeps.config 1 (conflictedMade 4) = 3 := by
  decide +kernel

/-- One conflict, one resumption. -/
theorem conflict_resumptions_sample :
    @conflictResumptions asciiHost asciiUnicode sampleDeps 1 (conflictedMade 2) ≤
      sampleDeps.config.conflictRounds := by
  obtain ⟨s, h⟩ := conflictedMade_history 2
  refine (@conflict_resumptions_iff asciiHost asciiUnicode sampleDeps emptyJournal s _ 1 h
    (conflictedMade_answers 2)).1.mpr ?_
  rw [conflictedMade_found.1]
  decide

/-- The limit is two, and the issue is resumed three times. -/
theorem conflict_resumed_thrice :
    ∃ made s, History (journalStep Fallible)
        (fun visit : Visit => @runOnce asciiHost asciiUnicode sampleDeps visit.skip) emptyJournal
        made s ∧
      (∀ m ∈ made, ∀ event ∈ m.trace, m.call.github.Answers event) ∧
      ¬ @conflictResumptions asciiHost asciiUnicode sampleDeps 1 made ≤
        sampleDeps.config.conflictRounds := by
  obtain ⟨s, h⟩ := conflictedMade_history 4
  refine ⟨conflictedMade 4, s, h, conflictedMade_answers 4, ?_⟩
  rw [@history_conflict asciiHost asciiUnicode 1 sampleDeps s emptyJournal _ h
    (conflictedMade_answers 4), conflictedMade_found.2]
  decide

end Newsdeck.Runner

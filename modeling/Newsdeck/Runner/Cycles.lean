import Newsdeck.Runner.Rehearsal

/-!
# The cycles of a session

A run of the session is a sequence of cycles.  A cycle resumes nothing when anything is in flight:
the session calls `runOnce` only when the journal shows no run in flight.

* `Cycles`, `session_cycles` — the cycles of a run;
* `judge`, `resumable_judge` — what `resumable` makes of a record, by what GitHub shows;
* `untouched_of_waiting` — a completed cycle after which something is in flight starts no work;
* `resumes_iff` — so a completed cycle takes up every record that is actionable exactly when none
  is.
-/

namespace Newsdeck.Runner

open Ecma Loop Effects Effects.Prog

/-! ### Cycles -/

/-- A cycle that came to its end. -/
structure CycleMade where
  session : Session
  trace : List RunnerEvent
  ending : CycleEnd

section Loop

variable [Host] [Unicode]

/-- After a completed cycle, the loop stops or is cut off. -/
def Halts (rest : List RunnerEvent) : Prop :=
  rest = [] ∨ rest = [⟨.stopping, false⟩] ∨ ∃ last, rest = ⟨.stopping, true⟩ :: last

/-- The events of the loop from this session on, and its cycles. -/
inductive Cycles (deps : RunnerDeps) : Session → List RunnerEvent → List CycleMade → Prop
  | cut (session : Session) : Cycles deps session [] []
  | stopped (session : Session) (last : List RunnerEvent) :
      Cycles deps session (⟨.stopping, true⟩ :: last) []
  | unfinished (session : Session) (trace : List RunnerEvent) (outcome : Outcome Text CycleEnd)
      (run : Run (cycle deps session) trace outcome)
        (open_ : ∀ ending, outcome ≠ .returned ending) :
      Cycles deps session (⟨.stopping, false⟩ :: trace) []
  | finished (session : Session) (trace : List RunnerEvent) (result : UnattendedResult)
      (run : Run (cycle deps session) trace (.returned (.finished result))) :
      Cycles deps session (⟨.stopping, false⟩ :: trace) [⟨session, trace, .finished result⟩]
  | retry (session : Session) (trace : List RunnerEvent) (next : Session) (rest : List RunnerEvent)
      (made : List CycleMade) (run : Run (cycle deps session) trace (.returned (.retry next)))
      (later : Cycles deps next rest made) :
      Cycles deps session (⟨.stopping, false⟩ :: (trace ++ rest))
        (⟨session, trace, .retry next⟩ :: made)
  | halted (session : Session) (trace : List RunnerEvent) (next : Session) (rest : List RunnerEvent)
      (run : Run (cycle deps session) trace (.returned (.completed next))) (halts : Halts rest) :
      Cycles deps session (⟨.stopping, false⟩ :: (trace ++ rest))
        [⟨session, trace, .completed next⟩]
  | completed (session : Session) (trace : List RunnerEvent) (next : Session)
      (rest : List RunnerEvent) (made : List CycleMade)
      (run : Run (cycle deps session) trace (.returned (.completed next)))
      (later : Cycles deps { next with failures := 0 } rest made) :
      Cycles deps session (⟨.stopping, false⟩ :: (trace ++ ⟨.stopping, false⟩ ::
        ⟨.sleep (deps.config.pollIntervalSeconds * 1000), ()⟩ :: rest))
        (⟨session, trace, .completed next⟩ :: made)

/-- The events of a session, and its cycles. -/
def SessionCycles (deps : RunnerDeps) (trace : List RunnerEvent) (made : List CycleMade) : Prop :=
  (trace = [] ∧ made = []) ∨ ∃ startedAt rest, trace = ⟨.now, startedAt⟩ :: rest ∧
    Cycles deps ⟨emptySummary startedAt, [], 0, 0⟩ rest made

variable {deps : RunnerDeps}

/-- Every run of the loop is a sequence of cycles. -/
theorem loop_cycles (turns : ℕ) :
    ∀ (session : Session) (trace : List RunnerEvent)
      (outcome : Outcome Text (Option UnattendedResult)),
      Run (sessionLoop deps turns session) trace outcome →
        ∃ made, Cycles deps session trace made := by
  induction turns with
  | zero =>
    intro session trace outcome h
    cases h
    exact ⟨[], .cut session⟩
  | succ turns ih =>
    intro session trace outcome h
    unfold sessionLoop at h
    cases h with
    | interrupt => exact ⟨[], .cut session⟩
    | call _ _ stop trace _ rest =>
      cases stop with
      | true => exact ⟨[], .stopped session trace⟩
      | false =>
        have hturn : Run (cycle deps session >>= _) trace outcome := rest
        rcases run_bind hturn with ⟨ending, before, after, rfl, hcycle, hafter⟩ | ⟨e, rfl, hcycle⟩ |
          ⟨rfl, hcycle⟩
        · cases ending with
          | finished result =>
            cases hafter
            rw [List.append_nil]
            exact ⟨_, .finished session before result hcycle⟩
          | retry next =>
            obtain ⟨made, hmade⟩ := ih next after outcome hafter
            exact ⟨_, .retry session before next after made hcycle hmade⟩
          | completed next =>
            cases hafter with
            | interrupt => exact ⟨_, .halted session before next [] hcycle (.inl rfl)⟩
            | call _ _ stop after _ hpause =>
              cases stop with
              | true => exact ⟨_, .halted session before next _ hcycle (.inr (.inr ⟨after, rfl⟩))⟩
              | false =>
                cases hpause with
                | interrupt => exact ⟨_, .halted session before next _ hcycle (.inr (.inl rfl))⟩
                | call _ _ _ after _ hloop =>
                  obtain ⟨made, hmade⟩ := ih _ after outcome hloop
                  exact ⟨_, .completed session before next after made hcycle hmade⟩
        · exact ⟨[], .unfinished session trace _ hcycle (by simp)⟩
        · exact ⟨[], .unfinished session trace _ hcycle (by simp)⟩

/-- Every run of the session is. -/
theorem session_cycles {turns : ℕ} {trace : List RunnerEvent}
    {outcome : Outcome Text (Option UnattendedResult)}
    (h : Run (runUnattended deps turns) trace outcome) : ∃ made, SessionCycles deps trace made := by
  unfold runUnattended at h
  cases h with
  | interrupt => exact ⟨[], .inl ⟨rfl, rfl⟩⟩
  | call _ _ startedAt rest _ hloop =>
    obtain ⟨made, hmade⟩ := loop_cycles turns _ rest outcome hloop
    exact ⟨made, .inr ⟨startedAt, rest, rfl, hmade⟩⟩

/-- Each of them is a run of `cycle`. -/
theorem Cycles.run {session : Session} {trace : List RunnerEvent} {made : List CycleMade}
    (h : Cycles deps session trace made) :
    ∀ turn ∈ made, Run (cycle deps turn.session) turn.trace (.returned turn.ending) := by
  induction h with
  | cut session => simp
  | stopped session last => simp
  | unfinished session trace outcome run open_ => simp
  | finished session trace result run => simpa using run
  | retry session trace next rest made run later ih =>
    intro turn hturn
    rcases List.mem_cons.mp hturn with rfl | hturn
    · exact run
    · exact ih turn hturn
  | halted session trace next rest run halts => simpa using run
  | completed session trace next rest made run later ih =>
    intro turn hturn
    rcases List.mem_cons.mp hturn with rfl | hturn
    · exact run
    · exact ih turn hturn

end Loop

/-! ### What `resumable` makes of a record -/

section Judge

variable [Unicode]

/-- The verdict of `resumable` on a record, by the pull requests GitHub shows. -/
def judge (config : RunnerConfig) (github : ℕ → GhPullRequest × Mergeability) (record : RunRecord) :
    Bool :=
  match record.pullRequest with
  | none => true
  | some number =>
      !(github number).1.isSettled &&
        (judgeOpen config record number (github number).1 (github number).2).actionable

/-- The answer is what GitHub shows. -/
def ShownBy (github : ℕ → GhPullRequest × Mergeability) : RunnerEvent → Prop
  | ⟨.pullRequest number, answer⟩ => answer = .ok (github number).1
  | ⟨.mergeability number, answer⟩ => answer = .ok (github number).2
  | _ => True

theorem resumable_judge [Host] {deps : RunnerDeps} {record : RunRecord} {trace : List RunnerEvent}
    {resumption : Resumption} {github : ℕ → GhPullRequest × Mergeability}
    (hrun : Run (resumable deps record) trace (.returned resumption))
    (hshown : ∀ event ∈ trace, ShownBy github event) :
    resumption.actionable = judge deps.config github record := by
  unfold resumable at hrun
  unfold judge
  cases hnumber : record.pullRequest with
  | none =>
    rw [hnumber] at hrun
    cases hrun
    rfl
  | some number =>
    rw [hnumber] at hrun
    cases hrun with
    | call _ _ answer rest _ hrest =>
      have hpr : answer = .ok (github number).1 := hshown _ List.mem_cons_self
      subst hpr
      dsimp only [raise, Prog.bind] at hrest
      cases hsettled : (github number).1.isSettled with
      | true =>
        rw [if_pos hsettled] at hrest
        cases hrest
        simp [hsettled, Resumption.actionable]
      | false =>
        rw [if_neg (by simp [hsettled])] at hrest
        cases hrest with
        | call _ _ answer rest _ hrest =>
          have hmergeable : answer = .ok (github number).2 :=
            hshown _ (List.mem_cons_of_mem _ List.mem_cons_self)
          subst hmergeable
          cases hrest
          simp [hsettled]

end Judge

/-! ### What a completed cycle takes up -/

section Waiting

variable [Host] [Unicode] {deps : RunnerDeps}

/-- The record is in flight after the cycle's `advance`. -/
def Waiting (deps : RunnerDeps) (turn : CycleMade) (record : RunRecord) : Prop :=
  ∃ before journal rest advanced, turn.trace = before ++ ⟨.readJournal, journal⟩ :: rest ∧
    Run (advance deps) before (.returned advanced) ∧ record ∈ inFlight journal

/-- The cycle calls `workIssue` for every record in flight that is actionable. -/
def ResumesAll (deps : RunnerDeps) (github : ℕ → GhPullRequest × Mergeability) (turn : CycleMade) :
    Prop :=
  ∀ record, Waiting deps turn record → judge deps.config github record = true →
    ∃ event ∈ turn.trace, event.op = .createLog record.issue

omit [Host] [Unicode] in
/-- Waiting a failure out does not complete a cycle. -/
theorem tolerate_incomplete (session : Session) (detail : ℕ → Text) :
    (tolerate deps session detail).Returns fun ending => ∀ next, ending ≠ .completed next := by
  unfold tolerate
  dsimp only
  split
  · exact Prog.returns_bind ((Prog.returns_true _).mono fun result _ => by rintro next ⟨⟩)
  · exact fun _ => by rintro next ⟨⟩

omit [Host] [Unicode] in
theorem notStarted_of_moveOp {op : Op} (h : MoveOp op) (number : ℕ) : op ≠ .createLog number := by
  rintro rfl
  exact h

/-- A completed cycle after whose `advance` anything is in flight starts no work. -/
theorem untouched_of_waiting {turn : CycleMade} {next : Session} {record : RunRecord}
    (hrun : Run (cycle deps turn.session) turn.trace (.returned (.completed next)))
    (hwaiting : Waiting deps turn record) :
    ∀ event ∈ turn.trace, ∀ number, event.op ≠ .createLog number := by
  obtain ⟨before, journal, rest, advanced, htrace, hadvance, hflight⟩ := hwaiting
  have hmoves := run_emits hadvance (advance_emits deps)
  unfold cycle at hrun
  rcases run_bind hrun with ⟨result, first, second, hsplit, hfirst, hsecond⟩ | ⟨e, he, -⟩ | ⟨he, -⟩
  · rcases run_attempt hfirst with ⟨found, hfound, hagain⟩ | ⟨e, hfound, hthrew⟩ | ⟨hfound, -⟩
    · cases hfound
      obtain ⟨rfl, rfl⟩ := run_same hagain hadvance rfl rfl (hsplit.symm.trans htrace)
      cases hsecond with
      | call _ _ _ after _ hafter =>
        have hsome : ¬ (inFlight journal).length = 0 := by
          rw [List.length_eq_zero_iff]
          exact List.ne_nil_of_mem hflight
        have hafter : Run (if (inFlight journal).length = 0 then takeWork deps _ else
            .ret (.completed _)) rest (.returned (.completed next)) := hafter
        rw [if_neg hsome] at hafter
        cases hafter
        intro event hevent number
        rw [htrace] at hevent
        rcases List.mem_append.mp hevent with hevent | hevent
        · exact notStarted_of_moveOp (hmoves event hevent) number
        · rw [List.mem_singleton.mp hevent]
          simp
    · cases hfound
      have hincomplete := (tolerate_incomplete turn.session _).returned hsecond
      exact absurd rfl (hincomplete next)
    · cases hfound
  · cases he
  · cases he

/-- **Resumption.**  Along every run of the session, a completed cycle calls `workIssue` for every
record in flight that `resumable` judges actionable, by what GitHub shows, exactly when there is no
such record. -/
theorem resumes_iff (deps : RunnerDeps) (turns : ℕ) (trace : List RunnerEvent)
    (outcome : Outcome Text (Option UnattendedResult))
    (hrun : Run (runUnattended deps turns) trace outcome) :
    ∃ made, SessionCycles deps trace made ∧
      ∀ turn ∈ made, ∀ next, turn.ending = .completed next →
        ∀ github : ℕ → GhPullRequest × Mergeability, ResumesAll deps github turn ↔
          ∀ record, Waiting deps turn record → judge deps.config github record = false := by
  obtain ⟨made, hmade⟩ := session_cycles hrun
  refine ⟨made, hmade, fun turn hturn next hending github => ?_⟩
  have hcycle : Run (cycle deps turn.session) turn.trace (.returned (.completed next)) := by
    rcases hmade with ⟨-, rfl⟩ | ⟨startedAt, rest, -, hcycles⟩
    · simp at hturn
    · rw [← hending]
      exact hcycles.run turn hturn
  constructor
  · intro hresumes record hwaiting
    by_contra hactionable
    obtain ⟨event, hevent, hstarted⟩ := hresumes record hwaiting (by simpa using hactionable)
    exact untouched_of_waiting hcycle hwaiting event hevent _ hstarted
  · intro hnone record hwaiting hactionable
    rw [hnone record hwaiting] at hactionable
    exact absurd hactionable (by simp)

end Waiting

/-! ### A run that was cut short -/

/-- Issue 1 was taken up, and the runner died before it had a pull request. -/
def stuckRecord : RunRecord where
  issue := 1
  branch := lit "agent/issue-1-fix"
  worktree := lit "/repo/../.loop-worktrees/issue-1"
  startedAt := lit "now"
  updatedAt := lit "now"
  status := .inProgress
  fixRounds := 0
  ciRounds := 0
  conflictRounds := 0
  pullRequest := none
  risk := none
  attempts := []

/-- A session on that journal, in a world in which everything goes well. -/
def stuckSession (turns : ℕ) : List RunnerEvent × Outcome Text
    (Option UnattendedResult) × Journal :=
  play (rehearse fun _ op => some (calm op))
    (@runUnattended asciiHost asciiUnicode sampleDeps turns)
    ⟨[stuckRecord]⟩

theorem stuckSession_run (turns : ℕ) :
    Run (@runUnattended asciiHost asciiUnicode sampleDeps turns) (stuckSession turns).1
      (stuckSession turns).2.1 :=
  run_play _ _ _

theorem resumes_sample :
    ∃ made, @SessionCycles asciiHost asciiUnicode sampleDeps (stuckSession 1).1 made ∧
      ∀ turn ∈ made, ∀ next, turn.ending = .completed next →
        ∀ github : ℕ → GhPullRequest × Mergeability,
          @ResumesAll asciiUnicode sampleDeps github turn ↔
            ∀ record, @Waiting asciiUnicode sampleDeps turn record →
              @judge asciiUnicode sampleDeps.config github record = false :=
  @resumes_iff asciiHost asciiUnicode sampleDeps 1 _ _ (stuckSession_run 1)

/-- The cycle of that session. -/
def stuckCycle : CycleMade where
  session := ⟨emptySummary (lit "now"), [], 0, 0⟩
  trace := [⟨.readJournal, ⟨[stuckRecord]⟩⟩, ⟨.readJournal, ⟨[stuckRecord]⟩⟩]
  ending := .completed ⟨emptySummary (lit "now"), [], 0, 0⟩

theorem stuckCycle_advance :
    Run (@advance asciiUnicode sampleDeps) [⟨.readJournal, ⟨[stuckRecord]⟩⟩]
      (.returned [advanceOutcome stuckRecord .nothingToDo
        (lit "No pull request yet; the next cycle will resume it.")]) :=
  run_play (rehearse fun _ op => some (calm op)) _ (⟨[stuckRecord]⟩ : Journal)

theorem stuckCycle_run :
    Run (@cycle asciiHost asciiUnicode sampleDeps stuckCycle.session) stuckCycle.trace
      (.returned stuckCycle.ending) :=
  run_play (rehearse fun _ op => some (calm op)) _ (⟨[stuckRecord]⟩ : Journal)

/-- The record is in flight and has no pull request, and the cycle leaves it alone. -/
theorem stuck_untouched :
    ∃ trace outcome made turn next,
      Run (@runUnattended asciiHost asciiUnicode sampleDeps 1) trace outcome ∧
      @SessionCycles asciiHost asciiUnicode sampleDeps trace made ∧ turn ∈ made ∧
      turn.ending = .completed next ∧
      ∀ github, ¬ @ResumesAll asciiUnicode sampleDeps github turn := by
  refine ⟨_, _, [stuckCycle], stuckCycle, _, stuckSession_run 1, ?_, by simp, rfl, ?_⟩
  · exact .inr ⟨lit "now", _, rfl, @Cycles.completed asciiHost asciiUnicode sampleDeps
      stuckCycle.session stuckCycle.trace _ [] [] stuckCycle_run
        (@Cycles.cut asciiHost asciiUnicode _ _)⟩
  · intro github hresumes
    have hwaiting : @Waiting asciiUnicode sampleDeps stuckCycle stuckRecord :=
      ⟨_, _, [], _, rfl, stuckCycle_advance, by decide⟩
    obtain ⟨event, hevent, hstarted⟩ := hresumes stuckRecord hwaiting rfl
    exact @untouched_of_waiting asciiHost asciiUnicode sampleDeps stuckCycle _ stuckRecord
      stuckCycle_run hwaiting event hevent _ hstarted

end Newsdeck.Runner

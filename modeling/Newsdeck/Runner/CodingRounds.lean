import Newsdeck.Runner.Records
import Newsdeck.Runner.Rehearsal

/-!
# How often the coding agent is invoked for one issue

A round is spent when the agent is invoked, and it is on record when the journal is written after
it. A call that is cut off between the two in a round after the first leaves a record from which the
next call starts the same round again.

* `Sound` — the invariant: no record of the issue shows fewer rounds than were spent, and as long as
  the issue is offered nothing was;
* `ownJob_sound`, `otherJob_sound`, `plan_sound`, `move_sound` — the parts of a call keep it;
* `invocations_le` — so the limit holds over every sequence of calls, when every invocation in a
  round after the first is followed by a write.
-/

namespace Newsdeck.Runner

open Ecma Loop Effects Effects.Prog

/-! ### The world of one issue -/

/-- The journal, and whether GitHub may still list the issue as ready. -/
structure Offer where
  journal : Journal
  offered : Bool

/-- The label an issue must carry to be selected. -/
def requiredLabel (deps : RunnerDeps) : Text :=
  (deps.selectionPolicy.getD defaultSelectionPolicy).requiredLabel

/-- The label is gone when its removal was answered. -/
def offeredAfter (number : ℕ) (offered : Bool) : RunnerEvent → Bool
  | ⟨.removeLabel issue label, answer⟩ =>
      offered && !(issue = number && label = readyLabel && succeeded answer)
  | _ => offered

/-- No list shows the issue as ready. -/
def Unlisted (deps : RunnerDeps) (number : ℕ) : RunnerEvent → Prop
  | ⟨.issues, answer⟩ => ∀ listed, answer = .ok listed → ∀ issue ∈ listed, issue.number = number →
      requiredLabel deps ∉ issue.labels
  | _ => True

/-- Nobody puts the label back: once it was removed from the issue, GitHub does not list the issue
as ready. -/
def offerStep (deps : RunnerDeps) (number : ℕ) (w : Offer) (event : RunnerEvent)
    (w' : Offer) : Prop :=
  journalStep Fallible w.journal event w'.journal ∧
    w'.offered = offeredAfter number w.offered event ∧
    (w.offered = false → Unlisted deps number event)

/-- The agent is invoked for the issue. -/
def invokes (number : ℕ) : RunnerEvent → Bool
  | ⟨.implement task, _⟩ => task.issue = number
  | _ => false

def invocations (number : ℕ) (trace : List RunnerEvent) : ℕ := trace.countP (invokes number)

/-- Whether an invocation for the issue, in a round after the first, waits for a write. -/
def unsavedAfter (number : ℕ) (unsaved : Bool) : RunnerEvent → Bool
  | ⟨.implement task, _⟩ => unsaved || (task.issue = number && task.round ≠ 0)
  | ⟨.writeJournal _, answer⟩ => unsaved && !succeeded answer
  | _ => unsaved

/-- Every invocation for the issue in a round after the first is followed by a write. -/
def Saved (number : ℕ) (trace : List RunnerEvent) : Prop :=
  trace.foldl (unsavedAfter number) false = false

instance (number : ℕ) (trace : List RunnerEvent) : Decidable (Saved number trace) :=
  inferInstanceAs (Decidable (_ = _))

structure Spending where
  invoked : ℕ
  unsaved : Bool

def Spending.tally (number : ℕ) (spending : Spending) (event : RunnerEvent) : Spending :=
  ⟨spending.invoked + if invokes number event then 1 else 0,
    unsavedAfter number spending.unsaved event⟩

theorem foldl_tally (number : ℕ) (trace : List RunnerEvent) :
    ∀ spending, trace.foldl (Spending.tally number) spending =
      ⟨spending.invoked + invocations number trace,
        trace.foldl (unsavedAfter number) spending.unsaved⟩ := by
  induction trace with
  | nil => exact fun _ => rfl
  | cons event trace ih =>
    intro spending
    rw [List.foldl_cons, ih, List.foldl_cons, invocations, invocations, List.countP_cons]
    simp only [Spending.tally, Spending.mk.injEq, and_true]
    omega

abbrev spendStep (deps : RunnerDeps) (number : ℕ) :
    Offer × Spending → RunnerEvent → Offer × Spending → Prop :=
  Tallied (offerStep deps number) (Spending.tally number)

/-- No record of the issue shows fewer rounds than were spent, nothing was spent as long as the
issue is offered, and the limit was kept. -/
structure Sound (deps : RunnerDeps) (number : ℕ) (w : Offer × Spending) : Prop where
  recorded : w.2.unsaved = false →
    ∀ run ∈ w.1.journal.runs, run.issue = number → w.2.invoked ≤ run.fixRounds + 1
  offered : w.1.offered = true → w.2.invoked = 0
  le : w.2.invoked ≤ deps.config.codingFixRounds

/-! ### Step lemmas -/

section Step

variable {deps : RunnerDeps} {number : ℕ} {w w' : Offer × Spending} {op : Op} {answer : op.Answer}

/-- The operation does not concern the issue, nor the journal. -/
def Aside (number : ℕ) : Op → Prop
  | .writeJournal _ => False
  | .implement task => task.issue ≠ number
  | .removeLabel issue label => issue ≠ number ∨ label ≠ readyLabel
  | _ => True

theorem spend_aside (hop : Aside number op) (h : spendStep deps number w ⟨op, answer⟩ w') :
    w' = w := by
  obtain ⟨⟨journal, offered⟩, ⟨invoked, unsaved⟩⟩ := w
  obtain ⟨⟨journal', offered'⟩, spending'⟩ := w'
  obtain ⟨⟨hjournal, hoffered, -⟩, hspending⟩ := h
  have hkeeps : KeepsJournal op := by
    rintro written rfl
    exact hop
  obtain rfl : journal' = journal := journalStep_keeps hkeeps hjournal
  cases op with
  | writeJournal written => exact hop.elim
  | implement task =>
    have htask : task.issue ≠ number := hop
    simp only [Spending.tally, invokes, unsavedAfter, htask, decide_false, Bool.false_and,
      Bool.or_false] at hspending
    simp only [offeredAfter] at hoffered
    simp [hspending, hoffered]
  | removeLabel issue label =>
    have hlabel : (decide (issue = number) && decide (label = readyLabel)) = false := by
      rcases hop with hissue | hlabel
      · simp [hissue]
      · simp [hlabel]
    simp only [offeredAfter, hlabel, Bool.false_and, Bool.not_false, Bool.and_true] at hoffered
    simp only [Spending.tally, invokes, unsavedAfter] at hspending
    simp [hspending, hoffered]
  | _ =>
    simp only [Spending.tally, invokes, unsavedAfter] at hspending
    simp only [offeredAfter] at hoffered
    simp [hspending, hoffered]

/-- The issue's record is replaced by one that shows the rounds that were spent. -/
theorem Sound.wrote {journal : Journal} {record : RunRecord}
    {answer : Op.Answer (.writeJournal (upsertRun journal record))} (h : Sound deps number w)
    (hissue : record.issue = number) (hspent : w.2.invoked ≤ record.fixRounds + 1)
    (hstep : spendStep deps number w ⟨.writeJournal (upsertRun journal record), answer⟩ w') :
    Sound deps number w' ∧ w'.2 = ⟨w.2.invoked, w.2.unsaved && !succeeded answer⟩ ∧
      w'.1.offered = w.1.offered := by
  obtain ⟨⟨hjournal, hoffered, -⟩, hspending⟩ := hstep
  have hspending : w'.2 = ⟨w.2.invoked, w.2.unsaved && !succeeded answer⟩ := hspending
  have hoffered : w'.1.offered = w.1.offered := hoffered
  refine ⟨⟨?_, ?_, ?_⟩, hspending, hoffered⟩
  · rw [hspending]
    intro hunsaved run hrun hnumber
    rcases hjournal with hback | ⟨hfailed, hsame⟩
    · rcases hback with hback | hback
      · rw [hback] at hrun
        rcases mem_upsertRun hrun with rfl | ⟨-, hother⟩
        · exact hspent
        · exact absurd (hnumber.trans hissue.symm) hother
      · rw [hback] at hrun
        simp [emptyJournal] at hrun
    · rw [hsame] at hrun
      rw [hfailed] at hunsaved
      exact h.recorded (by simpa using hunsaved) run hrun hnumber
  · rw [hspending, hoffered]
    exact h.offered
  · rw [hspending]
    exact h.le

/-- The agent is invoked in a round that is left. -/
theorem sound_invoked {task : CodingTask} {answer : Op.Answer (.implement task)}
    (hissue : task.issue = number) (hoffered : w.1.offered = false)
    (hspent : w.2.invoked ≤ task.round) (hleft : task.round < deps.config.codingFixRounds)
    (hstep : spendStep deps number w ⟨.implement task, answer⟩ w') :
    Sound deps number w' ∧ w'.2 = ⟨w.2.invoked + 1, w.2.unsaved || task.round ≠ 0⟩ ∧
      w'.1.offered = false := by
  obtain ⟨⟨hjournal, hsame, -⟩, hspending⟩ := hstep
  have hspending : w'.2 = ⟨w.2.invoked + 1, w.2.unsaved || task.round ≠ 0⟩ := by
    rw [hspending]
    simp [Spending.tally, invokes, unsavedAfter, hissue]
  have hsame : w'.1.offered = w.1.offered := hsame
  have hjournal : w'.1.journal = w.1.journal := hjournal
  refine ⟨⟨?_, ?_, ?_⟩, hspending, hsame.trans hoffered⟩
  · rw [hspending]
    intro hunsaved run hrun hnumber
    have hround : task.round = 0 := by
      have hround := (Bool.or_eq_false_iff.mp hunsaved).2
      simpa using hround
    show w.2.invoked + 1 ≤ run.fixRounds + 1
    omega
  · rw [hsame, hoffered]
    simp
  · rw [hspending]
    show w.2.invoked + 1 ≤ deps.config.codingFixRounds
    omega

end Step

/-! ### The work on the issue itself -/

section Own

variable {deps : RunnerDeps} {w w' : Offer × Spending}

/-- What holds in each phase of the work on the issue. -/
def Phase.Spends (job : Job) (w : Offer × Spending) : Phase → Prop
  | .idle | .claiming => w.2.unsaved = false ∧ w.2.invoked ≤ job.options.startRound ∧
      (w.2.invoked = 0 ∨ ∃ run ∈ w.1.journal.runs, run.issue = job.number)
  | .claimed | .opened _ => w.2.unsaved = false ∧ w.2.invoked ≤ job.options.startRound ∧
      (w.2.invoked = 0 ∨ ∃ run ∈ w.1.journal.runs, run.issue = job.number) ∧ w.1.offered = false
  | .ready draft => w.2.unsaved = false ∧ w.2.invoked ≤ job.options.startRound ∧
      w.2.invoked ≤ draft.record.fixRounds + 1 ∧ w.1.offered = false
  | .invoked round _ => (w.2.unsaved = false → round = 0) ∧ w.2.invoked ≤ round + 1 ∧
      w.1.offered = false
  | .working round draft => w.2.unsaved = false ∧ w.2.invoked ≤ round + 1 ∧
      draft.record.fixRounds = round ∧ w.1.offered = false
  | .ended => True

theorem Phase.spends_after {job : Job} {ok : Bool} {phase : Phase}
    (h : ok = true → phase.Spends job w) : (Phase.after ok phase).Spends job w := by
  cases ok
  · trivial
  · exact h rfl

/-- The record a run starts from shows the rounds that were spent. -/
theorem startsFrom_spent {job : Job} {record : RunRecord} (h : Sound deps job.number w)
    (hspends : Phase.Spends job w (.opened w.1.journal))
    (hstart : StartsFrom job w.1.journal record) :
    w.2.invoked ≤ record.fixRounds + 1 := by
  obtain ⟨hunsaved, -, hknown, -⟩ := hspends
  rcases hstart with hfind | ⟨hnone, startedAt, updatedAt, rfl⟩
  · obtain ⟨hmem, hnumber⟩ := findRun_mem hfind
    exact h.recorded hunsaved record hmem hnumber
  · rcases hknown with hzero | ⟨run, hrun, hnumber⟩
    · rw [hzero]
      exact Nat.zero_le _
    · exact absurd hnumber (findRun_eq_none.mp hnone run hrun)

/-- Every transition keeps the invariant. -/
theorem trans_sound {job : Job} {op : Op} {answer : op.Answer} {a b : Phase} {v : WorkEvent}
    (hdeps : job.deps = deps) (hop : WorkOp job.number op) (hview : workView ⟨op, answer⟩ = some v)
    (htrans : Trans job a v b) (h : Sound deps job.number w)
    (hsync : Synced Fallible job w.1.journal a) (hspends : a.Spends job w)
    (hstep : spendStep deps job.number w ⟨op, answer⟩ w') :
    Sound deps job.number w' ∧ b.Spends job w' := by
  have hwrote : ∀ (journal : Journal) (record : RunRecord) (ok : Bool) (next : Phase),
      v = .wrote (upsertRun journal record) ok → record.issue = job.number →
      w.2.invoked ≤ record.fixRounds + 1 →
      (ok = true → ∀ w' : Offer × Spending, w'.2 = ⟨w.2.invoked, false⟩ →
        w'.1.offered = w.1.offered →
        next.Spends job w') →
      Sound deps job.number w' ∧ (Phase.after ok next).Spends job w' := by
    rintro journal record ok next rfl hissue hspent hnext
    obtain ⟨answer', hevent, rfl⟩ := view_wrote hview
    cases hevent
    obtain ⟨hsound, hspending, hoffered⟩ := h.wrote hissue hspent hstep
    refine ⟨hsound, Phase.spends_after fun hok => hnext hok _ ?_ hoffered⟩
    rw [hspending, hok]
    simp
  have hinvoke : ∀ (round : ℕ) (draft : Draft), v = .invoked round → b = .invoked round draft →
      w.1.offered = false → w.2.unsaved = false → w.2.invoked ≤ round →
      round < job.maxRounds → Sound deps job.number w' ∧ b.Spends job w' := by
    rintro round draft rfl rfl hoffered hunsaved hspent hleft
    obtain ⟨task, answer', hevent, rfl⟩ := view_invoked hview
    cases hevent
    have hleft : task.round < deps.config.codingFixRounds := hdeps ▸ hleft
    obtain ⟨hsound, hspending, hoffered⟩ := sound_invoked hop hoffered hspent hleft hstep
    refine ⟨hsound, ?_, ?_, hoffered⟩
    · rw [hspending]
      intro hround
      simpa using (Bool.or_eq_false_iff.mp hround).2
    · rw [hspending]
      exact Nat.succ_le_succ hspent
  cases htrans with
  | claim ok =>
    obtain ⟨issue, answer', hevent, rfl⟩ := view_claimed hview
    cases hevent
    have haside : Aside job.number (.addLabels issue [inProgressLabel]) := trivial
    rw [spend_aside haside hstep]
    exact ⟨h, Phase.spends_after fun _ => hspends⟩
  | unready ok =>
    obtain ⟨issue, answer', hevent, rfl⟩ := view_unreadied hview
    cases hevent
    obtain ⟨⟨hjournal, hsame, -⟩, hspending⟩ := hstep
    have hissue : issue = job.number := hop
    have hjournal : w'.1.journal = w.1.journal := hjournal
    have hspending : w'.2 = w.2 := hspending
    have hsame : w'.1.offered = (w.1.offered && !succeeded answer') := by
      simpa [offeredAfter, hissue] using hsame
    obtain ⟨hunsaved, hspent, hknown⟩ := hspends
    refine ⟨⟨?_, ?_, ?_⟩, Phase.spends_after fun hok => ?_⟩
    · rw [hspending, hjournal]
      exact h.recorded
    · rw [hspending, hsame]
      exact fun hoffered => h.offered (Bool.and_eq_true_iff.mp hoffered).1
    · rw [hspending]
      exact h.le
    · refine ⟨by rwa [hspending], by rwa [hspending], by rwa [hspending, hjournal], ?_⟩
      rw [hsame, hok]
      simp
  | read journal =>
    cases view_read hview
    have haside : Aside job.number .readJournal := trivial
    rw [spend_aside haside hstep]
    exact ⟨h, hspends⟩
  | take journal record ok start =>
    obtain rfl : journal = w.1.journal := hsync
    have hspent : w.2.invoked ≤ record.fixRounds + 1 := startsFrom_spent h hspends start
    refine hwrote _ _ ok _ rfl start.issue hspent fun _ w' hspending hsame => ?_
    obtain ⟨-, hleft, -, hoffered⟩ := hspends
    exact ⟨by rw [hspending], by rw [hspending]; exact hleft, by rw [hspending]; exact hspent,
      hsame.trans hoffered⟩
  | first draft left =>
    obtain ⟨hunsaved, hspent, -, hoffered⟩ := hspends
    exact hinvoke _ draft rfl rfl hoffered hunsaved hspent left
  | next round draft left =>
    obtain ⟨hunsaved, hspent, -, hoffered⟩ := hspends
    exact hinvoke _ draft rfl rfl hoffered hunsaved hspent left
  | spend round draft attempt ok fits =>
    obtain ⟨-, hspent, hoffered⟩ := hspends
    refine hwrote _ _ ok _ rfl hsync.number hspent fun _ w' hspending hsame => ?_
    exact ⟨by rw [hspending], by rw [hspending]; exact hspent, rfl, hsame.trans hoffered⟩
  | note round draft risk attempt ok fits =>
    obtain ⟨-, hspent, hround, hoffered⟩ := hspends
    refine hwrote _ _ ok _ rfl hsync.number (hround.symm ▸ hspent) fun _ w' hspending hsame => ?_
    exact ⟨by rw [hspending], by rw [hspending]; exact hspent, hround, hsame.trans hoffered⟩
  | refuse draft ok =>
    obtain ⟨hsound, -⟩ := hwrote _ _ ok .ended rfl hsync.number hspends.2.2.1 fun _ _ _ _ => trivial
    exact ⟨hsound, trivial⟩
  | giveUp round draft ok =>
    obtain ⟨hsound, -⟩ := hwrote _ _ ok .ended rfl hsync.number
      (hspends.2.2.1.symm ▸ hspends.2.1) fun _ _ _ _ => trivial
    exact ⟨hsound, trivial⟩
  | publish round draft risk at_ number ok =>
    obtain ⟨hsound, -⟩ := hwrote _ _ ok .ended rfl hsync.number
      (hspends.2.2.1.symm ▸ hspends.2.1) fun _ _ _ _ => trivial
    exact ⟨hsound, trivial⟩

theorem aside_of_view_none {number : ℕ} {op : Op} {answer : op.Answer} (hop : WorkOp number op)
    (hview : workView ⟨op, answer⟩ = none) : Aside number op := by
  cases op with
  | writeJournal journal => simp [workView] at hview
  | implement task => simp [workView] at hview
  | removeLabel issue label =>
    refine .inr fun hlabel => ?_
    simp [workView, hlabel] at hview
  | _ => trivial

/-- The work on the issue, when as many rounds were spent as the run starts after. -/
theorem ownJob_sound [Host] [Unicode] {job : Job} (hdeps : job.deps = deps)
    (h : Sound deps job.number w) (hspends : Phase.Spends job w .idle) :
    Ensures (spendStep deps job.number) (Sound deps job.number) (fun _ => Sound deps job.number)
      (workJob job) w fun _ => Sound deps job.number := by
  refine ((workJob_follows job).ensures
    (fun phase w => Sound deps job.number w ∧ Synced Fallible job w.1.journal phase ∧
      phase.Spends job w) (workJob_emits job) ?_ ?_ ⟨h, trivial, hspends⟩).mono
    (fun _ _ ⟨_, _, hinv⟩ => hinv.1) (fun _ _ ⟨_, _, hinv⟩ => hinv.1) fun _ ⟨_, _, hinv⟩ => hinv.1
  · rintro phase op answer w w' hop hview hinv hstep
    rwa [spend_aside (aside_of_view_none hop hview) hstep]
  · rintro a b v op answer w w' hop hview htrans ⟨hsound, hsync, hspends⟩ hstep
    have hnext := trans_sound hdeps hop hview htrans hsound hsync hspends hstep
    exact ⟨hnext.1, synced_step hview hstep.1.1 htrans hsync, hnext.2⟩

end Own

/-! ### The work on other issues, and on pull requests -/

section Other

variable {deps : RunnerDeps} {number : ℕ} {w : Offer × Spending} {α : Type} {p : Action α}

/-- What the records of the issue must show. -/
def Accounts (number invoked : ℕ) (run : RunRecord) : Prop :=
  run.issue = number → invoked ≤ run.fixRounds + 1

/-- The operation is no invocation for the issue, and takes no label from it. -/
def Elsewhere (number : ℕ) : Op → Prop
  | .implement task => task.issue ≠ number
  | .removeLabel issue label => issue ≠ number ∨ label ≠ readyLabel
  | _ => True

theorem spend_elsewhere {w' : Offer × Spending} {op : Op} {answer : op.Answer}
    (hop : Elsewhere number op) (hstep : spendStep deps number w ⟨op, answer⟩ w') :
    w'.1.offered = w.1.offered ∧ w'.2.invoked = w.2.invoked ∧
      (w.2.unsaved = false → w'.2.unsaved = false) := by
  by_cases hwrite : ∃ journal, op = .writeJournal journal
  · obtain ⟨journal, rfl⟩ := hwrite
    obtain ⟨⟨-, hoffered, -⟩, hspending⟩ := hstep
    refine ⟨hoffered, by rw [hspending]; rfl, fun hunsaved => ?_⟩
    rw [hspending]
    show (w.2.unsaved && _) = false
    rw [hunsaved]
    rfl
  · have haside : Aside number op := by
      cases op with
      | writeJournal journal => exact absurd ⟨journal, rfl⟩ hwrite
      | implement task => exact hop
      | removeLabel issue label => exact hop
      | _ => trivial
    rw [spend_aside haside hstep]
    exact ⟨rfl, rfl, id⟩

/-- A part that does not concern the issue, and keeps what its records show. -/
theorem elsewhere_sound (h : Sound deps number w) (hunsaved : w.2.unsaved = false)
    (hp : p.Emits (Elsewhere number))
    (hrecords : Ensures (journalStep Fallible) (AllRuns (Accounts number w.2.invoked))
      (fun _ => AllRuns (Accounts number w.2.invoked)) p w.1.journal
      fun _ => AllRuns (Accounts number w.2.invoked)) :
    Ensures (spendStep deps number) (Sound deps number) (fun _ => Sound deps number) p w
      fun _ => Sound deps number := by
  have hframe : Ensures (spendStep deps number)
      (fun w' => w'.1.offered = w.1.offered ∧ w'.2.invoked = w.2.invoked ∧ w'.2.unsaved = false)
      (fun _ w' => w'.1.offered = w.1.offered ∧ w'.2.invoked = w.2.invoked ∧ w'.2.unsaved = false)
      p w
      fun _ w' => w'.1.offered = w.1.offered ∧ w'.2.invoked = w.2.invoked ∧
        w'.2.unsaved = false := by
    refine ensures_emits _ hp ?_ ⟨rfl, rfl, hunsaved⟩
    rintro op answer s s' hop ⟨hoffered, hinvoked, hs⟩ hstep
    obtain ⟨hoffered', hinvoked', hs'⟩ := spend_elsewhere hop hstep
    exact ⟨hoffered'.trans hoffered, hinvoked'.trans hinvoked, hs' hs⟩
  have hsound : ∀ w' : Offer × Spending, AllRuns (Accounts number w.2.invoked) w'.1.journal ∧
      (w'.1.offered = w.1.offered ∧ w'.2.invoked = w.2.invoked ∧ w'.2.unsaved = false) →
      Sound deps number w' := by
    rintro w' ⟨haccounts, hoffered, hinvoked, -⟩
    refine ⟨fun _ run hrun hnumber => ?_, fun hready => ?_, ?_⟩
    · rw [hinvoked]
      exact haccounts run hrun hnumber
    · rw [hinvoked]
      exact h.offered (hoffered ▸ hready)
    · rw [hinvoked]
      exact h.le
  refine Ensures.mono (Ensures.and (hrecords.within (fun w : Offer × Spending => w.1.journal)
    fun _ _ _ hstep => hstep.1.1) hframe) ?_ ?_ hsound
  · exact fun _ => hsound
  · exact fun _ => hsound

theorem otherJob_sound [Host] [Unicode] {job : Job} (h : Sound deps number w)
    (hunsaved : w.2.unsaved = false) (hother : job.number ≠ number) :
    Ensures (spendStep deps number) (Sound deps number) (fun _ => Sound deps number) (workJob job) w
      fun _ => Sound deps number := by
  refine elsewhere_sound h hunsaved ((workJob_emits job).mono fun op hop => ?_)
    (workJob_records allRuns_fallible (fun current record _ hrecord hnumber => ?_) ?_)
  · cases op with
    | implement task => exact fun htask => hother (hop.symm.trans htask)
    | removeLabel issue label => exact .inl fun hissue => hother (hop.symm.trans hissue)
    | _ => trivial
  · exact absurd (hrecord.issue.symm.trans hnumber) hother
  · exact h.recorded hunsaved

theorem moved_fixRounds {record changed : RunRecord} (h : Moved record changed) :
    changed.issue = record.issue ∧ changed.fixRounds = record.fixRounds := by
  cases h <;> exact ⟨rfl, rfl⟩

theorem move_sound [Unicode] {others : RunnerDeps} (h : Sound deps number w)
    (hunsaved : w.2.unsaved = false) :
    Ensures (spendStep deps number) (Sound deps number) (fun _ => Sound deps number)
      (advance others) w fun _ => Sound deps number := by
  refine elsewhere_sound h hunsaved ((advance_emits others).mono fun op hop => ?_)
    (advance_records allRuns_fallible (fun record changed haccounts hmoved hnumber => ?_) ?_)
  · cases op with
    | implement task => exact hop.elim
    | removeLabel issue label =>
      have hlabel : label = reviewLabel := hop
      refine .inr ?_
      rw [hlabel]
      simp [reviewLabel, readyLabel]
    | _ => trivial
  · obtain ⟨hissue, hrounds⟩ := moved_fixRounds hmoved
    rw [hrounds]
    exact haccounts (hissue.symm.trans hnumber)
  · exact h.recorded hunsaved

end Other

/-! ### The calls -/

section Calls

variable [Host] [Unicode] {deps : RunnerDeps} {number : ℕ} {w : Offer × Spending}

/-- What the decision promises the work on the issue. -/
def Plan.Spends (number : ℕ) (w : Offer × Spending) : Plan → Prop
  | .report _ => True
  | .resume issue startRound _ => issue.number = number → w.2.invoked ≤ startRound ∧
      ∃ run ∈ w.1.journal.runs, run.issue = number
  | .start issue => issue.number = number → w.2.invoked = 0

omit [Host] [Unicode] in
theorem aside_of_planOp (op : Op) (h : PlanOp op) : Aside number op := by
  cases op <;> trivial

omit [Host] [Unicode] in
/-- Asking changes nothing. -/
theorem asking_bind {α β : Type} {p : Action α} {f : α → Action β}
    {post : β → Offer × Spending → Prop} (hp : p.Emits PlanOp)
    (hf : ∀ x, Ensures (spendStep deps number) (· = w) (fun _ => (· = w)) (f x) w post) :
    Ensures (spendStep deps number) (· = w) (fun _ => (· = w)) (p >>= f) w post := by
  refine ensures_bind ((ensures_emits (· = w) hp ?_ rfl).weaken ?_)
  · rintro op answer s s' hop rfl hstep
    exact spend_aside (aside_of_planOp op hop) hstep
  · rintro x _ rfl
    exact hf x

theorem plan_spends {skip : Option (List ℕ)} (h : Sound deps number w)
    (hunsaved : w.2.unsaved = false) :
    Ensures (spendStep deps number) (· = w) (fun _ => (· = w)) (plan deps skip) w
      fun decision w' => w' = w ∧ decision.Spends number w := by
  unfold plan
  refine ensures_bind (ensures_call rfl fun journal w' hstep => ensures_ret ?_)
  have hjournal : journal = w.1.journal := hstep.1.1.1
  have haside : Aside number .readJournal := trivial
  rw [spend_aside haside hstep, hjournal]
  split
  · rename_i record rest hflight
    have hrun : record ∈ w.1.journal.runs :=
      (List.mem_filter.mp (show record ∈ inFlight w.1.journal from hflight ▸ List.mem_cons_self)).1
    unfold planResume
    refine asking_bind (resumable_emits deps record) fun resumption => ?_
    split
    · exact ensures_ret ⟨rfl, trivial⟩
    · refine ensures_bind (ensures_call rfl fun answer w' hstep => ?_)
      have haside : Aside number (.issue record.issue) := trivial
      have hanswer := hstep.1.1.1
      rw [spend_aside haside hstep]
      refine ensures_raise (fun issue hissue => ensures_ret ⟨rfl, fun hnumber => ?_⟩) fun _ _ => rfl
      have hrecord : record.issue = number := (hanswer issue hissue).symm.trans hnumber
      exact ⟨h.recorded hunsaved record hrun hrecord, record, hrun, hrecord⟩
  · unfold planStart
    refine ensures_bind (ensures_call rfl fun answer w' hstep => ?_)
    have haside : Aside number .issues := trivial
    have hlisted : w.1.offered = false → Unlisted deps number ⟨.issues, answer⟩ := hstep.1.2.2
    rw [spend_aside haside hstep]
    refine ensures_raise (fun listed hanswer => ?_) fun _ _ => rfl
    dsimp only
    split
    · exact ensures_ret ⟨rfl, trivial⟩
    · rename_i issue hselected
      refine ensures_ret ⟨rfl, fun hnumber => h.offered ?_⟩
      obtain ⟨i, hi, rfl, hlabel⟩ := runnerSelection_listed hselected
      by_contra hoffered
      exact hlisted (by simpa using hoffered) listed hanswer i hi hnumber hlabel

theorem work_sound {issue : IssueSummary} {options : WorkOptions} (h : Sound deps number w)
    (hunsaved : w.2.unsaved = false)
    (hspends : issue.number = number → w.2.invoked ≤ options.startRound ∧
      (w.2.invoked = 0 ∨ ∃ run ∈ w.1.journal.runs, run.issue = number)) :
    Ensures (spendStep deps number) (Sound deps number) (fun _ => Sound deps number)
      (workIssue deps issue options) w fun _ => Sound deps number := by
  by_cases hnumber : issue.number = number
  · subst hnumber
    have hjob : Sound deps (newJob deps issue options).number w := h
    exact ownJob_sound rfl hjob ⟨hunsaved, hspends rfl⟩
  · exact otherJob_sound h hunsaved hnumber

theorem carryOut_sound {decision : Plan} (h : Sound deps number w) (hunsaved : w.2.unsaved = false)
    (hspends : decision.Spends number w) :
    Ensures (spendStep deps number) (Sound deps number) (fun _ => Sound deps number)
      (carryOut deps decision) w fun _ => Sound deps number := by
  cases decision with
  | report result => exact ensures_ret h
  | resume issue startRound resumption =>
    refine ensures_bind ((work_sound h hunsaved fun hnumber => ?_).weaken
      fun _ _ hw => ensures_ret hw)
    exact ⟨(hspends hnumber).1, .inr (hspends hnumber).2⟩
  | start issue =>
    refine ensures_bind ((work_sound h hunsaved fun hnumber => ?_).weaken
      fun _ _ hw => ensures_ret hw)
    have hzero : w.2.invoked = 0 := hspends hnumber
    exact ⟨hzero.le, .inl hzero⟩

/-- A call of one of the two commands, with one configuration. -/
inductive Turn where
  | once (skip : Option (List ℕ))
  | move

def Turn.call (deps : RunnerDeps) : Turn → Call
  | .once skip => .once deps skip
  | .move => .move deps

theorem turn_sound (turn : Turn) (h : Sound deps number w) (hunsaved : w.2.unsaved = false) :
    Ensures (spendStep deps number) (Sound deps number) (fun _ => Sound deps number)
      (turn.call deps).program w fun _ => Sound deps number := by
  cases turn with
  | once skip =>
    have hsame : ∀ w' : Offer × Spending, w' = w → Sound deps number w' := fun w' hw => hw ▸ h
    refine ensures_bind (ensures_bind ((plan_spends h hunsaved).mono ?_ (fun _ => hsame) hsame))
    rintro decision w' ⟨rfl, hspends⟩
    exact (carryOut_sound h hunsaved hspends).weaken fun _ _ hw => ensures_ret hw
  | move => exact ensures_bind ((move_sound h hunsaved).weaken fun _ _ hw => ensures_ret hw)

abbrev TurnMade := Made Turn Op Op.Answer Text Unit

/-- How often the agent was invoked for the issue, over all calls. -/
def totalInvocations (number : ℕ) (made : List TurnMade) : ℕ :=
  (made.map fun call => invocations number call.trace).sum

/-- After one more call, which may be cut off anywhere. -/
theorem turn_tallied {turn : Turn} {s t : Offer} {total : ℕ} {trace : List RunnerEvent}
    {outcome : Outcome Text Unit} (h : Sound deps number (s, ⟨total, false⟩))
    (hrun : Run (turn.call deps).program trace outcome)
    (hsteps : Steps (offerStep deps number) s trace t) :
    Sound deps number (t, ⟨total + invocations number trace,
      trace.foldl (unsavedAfter number) false⟩) := by
  have htallied := steps_tallied (Spending.tally number) hsteps ⟨total, false⟩
  rw [foldl_tally] at htallied
  have hmeets := turn_sound turn h rfl trace outcome _ hrun htallied
  cases outcome with
  | returned a => exact hmeets
  | threw e => exact hmeets
  | interrupted => exact hmeets

theorem history_sound {start : Offer} {made : List TurnMade} {s : Offer}
    (hstart : Sound deps number (start, ⟨0, false⟩))
    (h : History (offerStep deps number) (fun turn => (turn.call deps).program) start made s) :
    (∀ call ∈ made, Saved number call.trace) →
      Sound deps number (s, ⟨totalInvocations number made, false⟩) := by
  induction h with
  | nil => exact fun _ => hstart
  | snoc _ turn trace outcome run steps ih =>
    intro hsaved
    have hbefore := ih fun call hcall => hsaved call (List.mem_append_left _ hcall)
    have hlast : Saved number trace := hsaved ⟨turn, trace, outcome⟩ (by simp)
    have hafter := turn_tallied hbefore run steps
    rw [hlast] at hafter
    simpa [totalInvocations] using hafter

/-- **The budget of the coding agent.**  Over every sequence of calls, wherever each was cut off,
the agent is invoked for the issue at most `codingFixRounds` times, provided that in every call but
the last each invocation in a round after the first was followed by a write of the journal. -/
theorem invocations_le (deps : RunnerDeps) (number : ℕ) (start : Journal) (made : List TurnMade)
    (s : Offer)
    (h : History (offerStep deps number) (fun turn => (turn.call deps).program)
      ⟨start, true⟩ made s)
    (hsaved : ∀ call ∈ made.dropLast, Saved number call.trace) :
    totalInvocations number made ≤ deps.config.codingFixRounds := by
  have hstart : Sound deps number (⟨start, true⟩, ⟨0, false⟩) :=
    ⟨fun _ _ _ _ => Nat.zero_le _, fun _ => rfl, Nat.zero_le _⟩
  cases h with
  | nil => exact Nat.zero_le _
  | snoc before turn trace outcome run steps =>
    rw [List.dropLast_concat] at hsaved
    have hafter := (turn_tallied (history_sound hstart before hsaved) run steps).le
    simpa [totalInvocations] using hafter

end Calls

/-! ### A round that is spent again and again -/

/-- The rehearsed world in which the issue is not listed after its label was removed. -/
def offering (number : ℕ) (script : Script) (w : Offer) (op : Op) : Option (op.Answer × Offer) :=
  match op with
  | .issues => (script w.journal .issues).map fun answer =>
      (if w.offered then answer else answer.map (List.filter fun issue => issue.number ≠ number), w)
  | op => (rehearse script w.journal op).map fun moved =>
      (moved.1, ⟨moved.2, offeredAfter number w.offered ⟨op, moved.1⟩⟩)

theorem offering_steps {deps : RunnerDeps} {number : ℕ} {script : Script} (hscript : script.Honest)
    (w : Offer) (op : Op) (answer : op.Answer) (w' : Offer)
    (h : offering number script w op = some (answer, w')) :
    offerStep deps number w ⟨op, answer⟩ w' := by
  by_cases hissues : op = .issues
  · subst hissues
    obtain ⟨given, -, hgiven⟩ := Option.map_eq_some_iff.mp h
    obtain ⟨rfl, rfl⟩ := Prod.mk.inj hgiven
    refine ⟨rfl, rfl, fun hoffered listed hlisted issue hissue hnumber => ?_⟩
    rw [hoffered] at hlisted
    cases given with
    | error e => cases hlisted
    | ok all =>
      cases hlisted
      have hother := (List.mem_filter.mp hissue).2
      simp [hnumber] at hother
  · have hmoved : ∃ moved, rehearse script w.journal op = some moved ∧
        (moved.1, (⟨moved.2, offeredAfter number w.offered ⟨op, moved.1⟩⟩ : Offer)) =
          (answer, w') := by
      cases op <;> first | exact absurd rfl hissues | exact Option.map_eq_some_iff.mp h
    obtain ⟨moved, hrehearse, hmoved⟩ := hmoved
    obtain ⟨rfl, rfl⟩ := Prod.mk.inj hmoved
    refine ⟨rehearse_steps (fun _ => .inl rfl) hscript _ _ _ _ hrehearse, rfl, fun _ => ?_⟩
    cases op <;> first | exact absurd rfl hissues | trivial

section Offered

variable [Host] [Unicode]

/-- The calls, one after the other, each with its own script. -/
def offeredCalls (deps : RunnerDeps) (number : ℕ) (calls : List (Turn × Script)) (w : Offer) :
    List TurnMade × Offer :=
  playAll (fun turn => (turn.call deps).program)
    (calls.map fun call => (call.1, offering number call.2)) w

theorem offeredCalls_history (deps : RunnerDeps) (number : ℕ) (calls : List (Turn × Script))
    (w : Offer) (hcalls : ∀ call ∈ calls, call.2.Honest) :
    History (offerStep deps number) (fun turn => (turn.call deps).program) w
      (offeredCalls deps number calls w).1 (offeredCalls deps number calls w).2 := by
  refine history_playAll id _ [] w .nil ?_
  intro call hcall
  obtain ⟨call, hmem, rfl⟩ := List.mem_map.mp hcall
  exact offering_steps (hcalls call hmem)

end Offered

/-- Verification never succeeds, and the runner is cut off after the agent's second round. -/
def cutOff : Script := fun _ op =>
  match op with
  | .verify options => some (.ok ⟨false, options.risk, [], none, [], []⟩)
  | .logArtifact name _ => if name = lit "coding-result-1.json" then none else some (.ok ())
  | op => some (calm op)

theorem cutOff_honest : cutOff.Honest := by
  intro journal number issue hissue
  cases hissue
  rfl

/-- Verification never succeeds, and the runner is cut off when the second round is on record. -/
def cutLater : Script := fun _ op =>
  match op with
  | .verify options => some (.ok ⟨false, options.risk, [], none, [], []⟩)
  | .logArtifact name _ => if name = lit "verification-1.json" then none else some (.ok ())
  | op => some (calm op)

theorem cutLater_honest : cutLater.Honest := by
  intro journal number issue hissue
  cases hissue
  rfl

/-- The issue is taken, cut off in its second round, and resumed in the third. -/
def savedCalls : List (Turn × Script) := List.replicate 2 (.once none, cutLater)

theorem savedCalls_honest : ∀ call ∈ savedCalls, call.2.Honest := by
  intro call hcall
  rw [List.eq_of_mem_replicate hcall]
  exact cutLater_honest

def savedMade : List TurnMade × Offer :=
  @offeredCalls asciiHost asciiUnicode sampleDeps 1 savedCalls ⟨emptyJournal, true⟩

theorem savedMade_saved :
    (∀ call ∈ savedMade.1.dropLast, Saved 1 call.trace) ∧
      savedMade.1.map (fun call => invocations 1 call.trace) = [2, 1] := by
  decide +kernel

/-- Two rounds before the runner was cut off, and the one that was left. -/
theorem invocations_le_sample :
    savedMade.1.map (fun call => invocations 1 call.trace) = [2, 1] ∧
      totalInvocations 1 savedMade.1 ≤ sampleDeps.config.codingFixRounds :=
  ⟨savedMade_saved.2, @invocations_le asciiHost asciiUnicode sampleDeps 1 emptyJournal savedMade.1
    savedMade.2 (@offeredCalls_history asciiHost asciiUnicode sampleDeps 1 savedCalls _
      savedCalls_honest) savedMade_saved.1⟩

/-- Three calls that are cut off after the second round invoke the agent four times, and the limit
is three. -/
theorem cutOff_invokes_four :
    ∃ made s, History (offerStep sampleDeps 1)
        (fun turn => @Call.program asciiHost asciiUnicode (turn.call sampleDeps))
        ⟨emptyJournal, true⟩ made s ∧
      ¬ totalInvocations 1 made ≤ sampleDeps.config.codingFixRounds := by
  refine ⟨_, _, @offeredCalls_history asciiHost asciiUnicode sampleDeps 1
    (List.replicate 3 (.once none, cutOff)) ⟨emptyJournal, true⟩ ?_, by decide +kernel⟩
  intro call hcall
  rw [List.eq_of_mem_replicate hcall]
  exact cutOff_honest

end Newsdeck.Runner

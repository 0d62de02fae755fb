import Newsdeck.Runner.JournalFile

/-!
# What holds of every record

A property of single records holds of all of them for ever when it holds of what `workIssue` and
`advance` make of a record, and when a journal of such records reads back as one.

* `workJob_records`, `advance_records` — each of the two keeps it.
-/

namespace Newsdeck.Runner

open Ecma Loop Effects Effects.Prog

/-- Every record of the journal has the property. -/
def AllRuns (Q : RunRecord → Prop) (journal : Journal) : Prop := ∀ run ∈ journal.runs, Q run

section Records

variable {reads : Journal → Journal → Prop} {Q : RunRecord → Prop}

theorem allRuns_upsertRun {journal : Journal} {record : RunRecord} (h : AllRuns Q journal)
    (hrecord : Q record) : AllRuns Q (upsertRun journal record) := by
  intro run hrun
  rcases mem_upsertRun hrun with rfl | ⟨hmem, -⟩
  · exact hrecord
  · exact h run hmem

theorem allRuns_empty : AllRuns Q emptyJournal := by
  intro run hrun
  simp [emptyJournal] at hrun

theorem allRuns_fallible (written back : Journal) (h : AllRuns Q written)
    (hback : Fallible written back) : AllRuns Q back := by
  rcases hback with rfl | rfl
  · exact h
  · exact allRuns_empty

/-- A write of a good journal leaves a good one, whether or not it took place. -/
theorem allRuns_wrote (hreads : ∀ written back, AllRuns Q written → reads written back → AllRuns Q back)
    {s s' written : Journal} {answer : Op.Answer (.writeJournal written)} (h : AllRuns Q s)
    (hwritten : AllRuns Q written)
    (hstep : journalStep reads s ⟨.writeJournal written, answer⟩ s') : AllRuns Q s' := by
  rcases hstep with hback | ⟨-, hsame⟩
  · exact hreads _ _ hwritten hback
  · rw [hsame]
    exact h

/-- The journal a phase of `workIssue` goes on with. -/
def Phase.Goes (Q : RunRecord → Prop) : Phase → Prop
  | .opened journal => AllRuns Q journal
  | .ready draft => AllRuns Q draft.journal
  | .invoked _ draft => AllRuns Q draft.journal
  | .working _ draft => AllRuns Q draft.journal
  | _ => True

theorem Phase.goes_after {ok : Bool} {phase : Phase} (h : phase.Goes Q) :
    (Phase.after ok phase).Goes Q := by
  cases ok
  · trivial
  · exact h

/-- The journals that are written are good ones, and so is what the run goes on with. -/
theorem trans_goes {job : Job} {s : Journal} {a b : Phase} {v : WorkEvent}
    (hwork : ∀ current record, AllRuns Q current → Rewritten job current record → Q record)
    (htrans : Trans job a v b) (hsync : Synced reads job s a) (hgoes : a.Goes Q)
    (hread : ∀ journal, v = .read journal → AllRuns Q journal) :
    b.Goes Q ∧ ∀ journal ok, v = .wrote journal ok → AllRuns Q journal := by
  have hsaved : ∀ current record, AllRuns Q current → Rewritten job current record →
      AllRuns Q (upsertRun current record) :=
    fun current record hcurrent hrecord =>
      allRuns_upsertRun hcurrent (hwork current record hcurrent hrecord)
  cases htrans with
  | claim ok => exact ⟨Phase.goes_after trivial, by simp⟩
  | unready ok => exact ⟨Phase.goes_after trivial, by simp⟩
  | read journal => exact ⟨hread journal rfl, by simp⟩
  | take journal record ok start =>
    have h := hsaved _ _ hgoes (.taken record start)
    exact ⟨Phase.goes_after h, by rintro _ _ ⟨⟩; exact h⟩
  | first draft left => exact ⟨hgoes, by simp⟩
  | next round draft left => exact ⟨hgoes, by simp⟩
  | spend round draft attempt ok fits =>
    have h := hsaved _ _ hgoes (.spent _ hsync.mem hsync.number round _ fits)
    exact ⟨Phase.goes_after h, by rintro _ _ ⟨⟩; exact h⟩
  | note round draft risk attempt ok fits =>
    have h := hsaved _ _ hgoes (.noted _ hsync.mem hsync.number risk _ fits)
    exact ⟨Phase.goes_after h, by rintro _ _ ⟨⟩; exact h⟩
  | refuse draft ok =>
    have h := hsaved _ _ hgoes (.givenUp _ hsync.mem hsync.number)
    exact ⟨trivial, by rintro _ _ ⟨⟩; exact h⟩
  | giveUp round draft ok =>
    have h := hsaved _ _ hgoes (.givenUp _ hsync.mem hsync.number)
    exact ⟨trivial, by rintro _ _ ⟨⟩; exact h⟩
  | publish round draft risk at_ number ok =>
    have h := hsaved _ _ hgoes (.published _ hsync.mem hsync.number risk at_ number)
    exact ⟨trivial, by rintro _ _ ⟨⟩; exact h⟩

/-- **Records under `workIssue`.** -/
theorem workJob_records [Host] [Unicode] {job : Job} {s : Journal}
    (hreads : ∀ written back, AllRuns Q written → reads written back → AllRuns Q back)
    (hwork : ∀ current record, AllRuns Q current → Rewritten job current record → Q record)
    (h : AllRuns Q s) :
    Ensures (journalStep reads) (AllRuns Q) (fun _ => AllRuns Q) (workJob job) s
      fun _ => AllRuns Q := by
  refine ((workJob_follows job).ensures
    (fun phase s => AllRuns Q s ∧ Synced reads job s phase ∧ phase.Goes Q) (emits_true _) ?_ ?_
    ⟨h, trivial, trivial⟩).mono (fun _ _ ⟨_, _, hinv⟩ => hinv.1) (fun _ _ ⟨_, _, hinv⟩ => hinv.1)
    fun _ ⟨_, _, hinv⟩ => hinv.1
  · rintro phase op answer s s' - hview ⟨hall, hsync, hgoes⟩ hstep
    rw [journalStep_keeps (keepsJournal_of_view_none hview) hstep]
    exact ⟨hall, hsync, hgoes⟩
  · rintro a b v op answer s s' - hview htrans ⟨hall, hsync, hgoes⟩ hstep
    have hread : ∀ journal, v = .read journal → AllRuns Q journal := by
      rintro journal rfl
      cases view_read hview
      have hjournal : journal = s := hstep.1
      rw [hjournal]
      exact hall
    obtain ⟨hnext, hwritten⟩ := trans_goes hwork htrans hsync hgoes hread
    refine ⟨?_, synced_step hview hstep htrans hsync, hnext⟩
    by_cases hv : ∃ journal ok, v = .wrote journal ok
    · obtain ⟨journal, ok, rfl⟩ := hv
      obtain ⟨answer', hevent, -⟩ := view_wrote hview
      cases hevent
      exact allRuns_wrote hreads hall (hwritten journal _ rfl) hstep
    · rw [journalStep_keeps (keepsJournal_of_view hview fun j ok hj => hv ⟨j, ok, hj⟩) hstep]
      exact hall

/-- The journals a phase of `advance` has read. -/
def Looking.Goes (Q : RunRecord → Prop) : Looking → Prop
  | .idle => True
  | .listed journal => AllRuns Q journal
  | .reread journal current => AllRuns Q journal ∧ AllRuns Q current

/-- **Records under `advance`.** -/
theorem advance_records [Unicode] {deps : RunnerDeps} {s : Journal}
    (hreads : ∀ written back, AllRuns Q written → reads written back → AllRuns Q back)
    (hmoved : ∀ record changed, Q record → Moved record changed → Q changed) (h : AllRuns Q s) :
    Ensures (journalStep reads) (AllRuns Q) (fun _ => AllRuns Q) (advance deps) s
      fun _ => AllRuns Q := by
  refine ((advance_follows deps).ensures (fun phase s => AllRuns Q s ∧ phase.Goes Q) (emits_true _)
    ?_ ?_ ⟨h, trivial⟩).mono (fun _ _ ⟨_, _, hinv⟩ => hinv.1) (fun _ _ ⟨_, _, hinv⟩ => hinv.1)
    fun _ ⟨_, _, hinv⟩ => hinv.1
  · rintro phase op answer s s' - hview hinv hstep
    rwa [journalStep_keeps (keepsJournal_of_view_none hview) hstep]
  · rintro a b v op answer s s' - hview htrans ⟨hall, hgoes⟩ hstep
    cases htrans with
    | list journal =>
      cases view_read hview
      obtain ⟨rfl, rfl⟩ : journal = s ∧ s' = s := hstep
      exact ⟨hall, hall⟩
    | reread journal current =>
      cases view_read hview
      obtain ⟨rfl, rfl⟩ : current = s ∧ s' = s := hstep
      exact ⟨hall, hgoes, hall⟩
    | rewrite journal current record changed ok run moved =>
      obtain ⟨answer', hevent, -⟩ := view_wrote hview
      cases hevent
      have hchanged : Q changed :=
        hmoved record changed (hgoes.1 record (List.mem_filter.mp run).1) moved
      exact ⟨allRuns_wrote hreads hall (allRuns_upsertRun hgoes.2 hchanged) hstep, hgoes.1⟩

end Records

end Newsdeck.Runner

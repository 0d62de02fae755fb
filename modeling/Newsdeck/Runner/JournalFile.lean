import Newsdeck.Library.Histories
import Newsdeck.Runner.Movement

/-!
# The journal file under the runner's events

`journalStep` says what an event does to what the next read of the journal returns.  How faithfully a
write reads back is a parameter: `Reliable` returns what was written, `Fallible` may also lose the
file, as an unreadable record or a write cut short does.

* `journalStep_keeps` — nothing but a write changes the file;
* `synced_step` — the journal a run of `workIssue` goes on with is the one it last wrote;
* `trans_wrote` — every write replaces the issue's own record in that journal;
* `Call` — the calls that share one journal.
-/

namespace Newsdeck.Runner

open Ecma Loop Effects Effects.Prog

/-- A read returns what was written. -/
def Reliable (written back : Journal) : Prop := back = written

/-- A read returns what was written, or the empty journal an unreadable file reads as. -/
def Fallible (written back : Journal) : Prop := back = written ∨ back = emptyJournal

/-- What an event does to the journal a read returns.  A write that throws may or may not have taken
place; `gh issue view n` shows issue `n`. -/
def journalStep (reads : Journal → Journal → Prop) (s : Journal) (event : RunnerEvent)
    (s' : Journal) : Prop :=
  match event with
  | ⟨.readJournal, journal⟩ => journal = s ∧ s' = s
  | ⟨.writeJournal journal, answer⟩ => reads journal s' ∨ (succeeded answer = false ∧ s' = s)
  | ⟨.issue number, answer⟩ => (∀ issue : GhIssue, answer = .ok issue → issue.number = number) ∧ s' = s
  | _ => s' = s

/-- The operation is no write of the journal. -/
def KeepsJournal (op : Op) : Prop := ∀ journal, op ≠ .writeJournal journal

section Step

variable {reads : Journal → Journal → Prop} {s s' : Journal} {op : Op} {answer : op.Answer}

theorem journalStep_keeps (hop : KeepsJournal op) (h : journalStep reads s ⟨op, answer⟩ s') :
    s' = s := by
  cases op with
  | writeJournal journal => exact absurd rfl (hop journal)
  | readJournal => exact h.2
  | issue number => exact h.2
  | _ => exact h

theorem keepsJournal_of_view_none (h : workView ⟨op, answer⟩ = none) : KeepsJournal op := by
  rintro journal rfl
  simp [workView] at h

theorem keepsJournal_of_view {v : WorkEvent} (h : workView ⟨op, answer⟩ = some v)
    (hv : ∀ journal ok, v ≠ .wrote journal ok) : KeepsJournal op := by
  rintro journal rfl
  exact hv _ _ (Option.some.inj h).symm

theorem keepsJournal_of_planOp (op : Op) (h : PlanOp op) : KeepsJournal op := by
  rintro journal rfl
  exact h

end Step

/-! ### The variables of `workIssue` and the file -/

section Sync

variable (reads : Journal → Journal → Prop) (job : Job)

/-- The draft was saved, and its record is the issue's. -/
structure Held (s : Journal) (draft : Draft) : Prop where
  saved : reads draft.journal s
  number : draft.record.issue = job.number
  mem : draft.record ∈ draft.journal.runs

/-- The variables of the run agree with the file. -/
def Synced (s : Journal) : Phase → Prop
  | .opened journal => journal = s
  | .ready draft => Held reads job s draft
  | .invoked _ draft => Held reads job s draft
  | .working _ draft => Held reads job s draft
  | _ => True

variable {reads job} {s s' : Journal} {op : Op} {answer : op.Answer} {a b : Phase} {v : WorkEvent}

theorem StartsFrom.issue {journal : Journal} {record : RunRecord}
    (h : StartsFrom job journal record) : record.issue = job.number := by
  rcases h with hfind | ⟨-, startedAt, updatedAt, rfl⟩
  · exact (findRun_mem hfind).2
  · rfl

/-- What was written is the saved draft, unless the write threw and the run is at its end. -/
theorem synced_wrote {journal : Journal} {record : RunRecord} {ok : Bool} {next : Phase}
    (hview : workView ⟨op, answer⟩ = some (.wrote (upsertRun journal record) ok))
    (hstep : journalStep reads s ⟨op, answer⟩ s') (hissue : record.issue = job.number)
    (hnext : ∀ s', Held reads job s' ⟨upsertRun journal record, record⟩ → Synced reads job s' next) :
    Synced reads job s' (.after ok next) := by
  obtain ⟨answer', hevent, rfl⟩ := view_wrote hview
  cases hevent
  cases hok : succeeded answer' with
  | false => exact trivial
  | true =>
    refine hnext s' ⟨?_, hissue, self_mem_upsertRun journal record⟩
    rcases hstep with hreads | ⟨hfalse, -⟩
    · exact hreads
    · rw [hok] at hfalse
      exact absurd hfalse (by simp)

theorem synced_quiet (hop : KeepsJournal op) (hstep : journalStep reads s ⟨op, answer⟩ s')
    (h : Synced reads job s a) : Synced reads job s' a := by
  rw [journalStep_keeps hop hstep]
  exact h

theorem synced_step (hview : workView ⟨op, answer⟩ = some v)
    (hstep : journalStep reads s ⟨op, answer⟩ s') (htrans : Trans job a v b)
    (h : Synced reads job s a) : Synced reads job s' b := by
  cases htrans with
  | claim ok => cases ok <;> trivial
  | unready ok => cases ok <;> trivial
  | read journal =>
    cases view_read hview
    exact hstep.1.trans hstep.2.symm
  | take journal record ok start =>
    exact synced_wrote hview hstep start.issue fun _ hheld => hheld
  | first draft left =>
    exact synced_quiet (keepsJournal_of_view hview fun _ _ => by simp) hstep h
  | next round draft left =>
    exact synced_quiet (keepsJournal_of_view hview fun _ _ => by simp) hstep h
  | spend round draft attempt ok fits =>
    exact synced_wrote hview hstep h.number fun _ hheld => hheld
  | note round draft risk attempt ok fits =>
    exact synced_wrote hview hstep h.number fun _ hheld => hheld
  | refuse draft ok => trivial
  | giveUp round draft ok => trivial
  | publish round draft risk at_ number ok => trivial

/-- The records `workIssue` puts in the place of the issue's own. -/
inductive Rewritten (job : Job) (current : Journal) : RunRecord → Prop
  | taken (record : RunRecord) (start : StartsFrom job current record) :
      Rewritten job current (taken job record)
  | spent (record : RunRecord) (mem : record ∈ current.runs) (number : record.issue = job.number)
      (round : ℕ) (attempt : Attempt) (fits : attempt.Fits) :
      Rewritten job current (spent record round attempt)
  | noted (record : RunRecord) (mem : record ∈ current.runs) (number : record.issue = job.number)
      (risk : Option RiskLevel) (attempt : Attempt) (fits : attempt.Fits) :
      Rewritten job current (noted record risk attempt)
  | givenUp (record : RunRecord) (mem : record ∈ current.runs)
      (number : record.issue = job.number) : Rewritten job current (givenUp record)
  | published (record : RunRecord) (mem : record ∈ current.runs)
      (number : record.issue = job.number) (risk : RiskLevel) (at_ : Text) (pullRequest : ℕ) :
      Rewritten job current (published record risk at_ pullRequest)

theorem Rewritten.issue {current : Journal} {record : RunRecord}
    (h : Rewritten job current record) : record.issue = job.number := by
  cases h with
  | taken record start => exact start.issue
  | spent record _ number => exact number
  | noted record _ number => exact number
  | givenUp record _ number => exact number
  | published record _ number => exact number

/-- What `workIssue` writes: the journal it read or last saved, with the issue's record replaced. -/
theorem trans_wrote {journal : Journal} {ok : Bool} (htrans : Trans job a (.wrote journal ok) b)
    (h : Synced reads job s a) :
    ∃ current record, journal = upsertRun current record ∧ (current = s ∨ reads current s) ∧
      Rewritten job current record := by
  cases htrans with
  | take journal record ok start => exact ⟨_, _, rfl, .inl h, .taken record start⟩
  | spend round draft attempt ok fits =>
    exact ⟨_, _, rfl, .inr h.saved, .spent _ h.mem h.number round _ fits⟩
  | note round draft risk attempt ok fits =>
    exact ⟨_, _, rfl, .inr h.saved, .noted _ h.mem h.number risk _ fits⟩
  | refuse draft ok => exact ⟨_, _, rfl, .inr h.saved, .givenUp _ h.mem h.number⟩
  | giveUp round draft ok => exact ⟨_, _, rfl, .inr h.saved, .givenUp _ h.mem h.number⟩
  | publish round draft risk at_ number ok =>
    exact ⟨_, _, rfl, .inr h.saved, .published _ h.mem h.number risk at_ number⟩

end Sync

/-! ### The calls that share a journal -/

/-- A call of one of the two commands that work on the journal. -/
inductive Call where
  | once (deps : RunnerDeps) (skip : Option (List ℕ))
  | move (deps : RunnerDeps)

def Call.program [Host] [Unicode] : Call → Action Unit
  | .once deps skip => do
      let _ ← runOnce deps skip
      .ret ()
  | .move deps => do
      let _ ← advance deps
      .ret ()

end Newsdeck.Runner

import Newsdeck.Runner.Rehearsal

/-!
# One issue at a time, over every sequence of calls

Nothing in the journal says that the runner works on one issue at a time.  That at most one record
is in flight follows from the order in which `runOnce`, `workIssue` and `advance` read and write it,
and with it that the cap on the number of records never drops the run in flight.

* `Only` — the invariant: one record for each issue, only this issue may be in flight, and no record
  in flight was ever dropped;
* `workJob_only`, `plan_only`, `advance_only` — each part keeps it;
* `serial_execution` — so it holds after every sequence of calls, wherever each was interrupted.
-/

namespace Newsdeck.Runner

open Ecma Loop Effects Effects.Prog

/-- The journal, and the issues whose record in flight some write left out. -/
structure Watched where
  journal : Journal
  evicted : List ℕ

/-- The issues in flight before that have no record after. -/
def dropped (before after : Journal) : List ℕ :=
  ((inFlight before).map RunRecord.issue).filter fun issue => (findRun after issue).isNone

/-- The world of a journal whose reads return what was written. -/
def watch (w : Watched) (event : RunnerEvent) (w' : Watched) : Prop :=
  journalStep Reliable w.journal event w'.journal ∧
    w'.evicted = w.evicted ++ dropped w.journal w'.journal

def newWatched : Watched := ⟨emptyJournal, []⟩

/-- One record for each issue, only issue `n` in flight, and nothing dropped. -/
structure Only (n : ℕ) (w : Watched) : Prop where
  nodup : (w.journal.runs.map RunRecord.issue).Nodup
  single : ∀ run ∈ inFlight w.journal, run.issue = n
  kept : w.evicted = []

/-! ### Step lemmas -/

section Step

variable {n : ℕ} {w w' : Watched} {op : Op} {answer : op.Answer}

theorem dropped_eq_nil {before after : Journal}
    (h : ∀ run ∈ inFlight before, ∃ r ∈ after.runs, r.issue = run.issue) :
    dropped before after = [] := by
  unfold dropped
  rw [List.filter_eq_nil_iff]
  intro issue hissue
  obtain ⟨run, hrun, rfl⟩ := List.mem_map.mp hissue
  obtain ⟨r, hr, hrissue⟩ := h run hrun
  rw [Option.isNone_iff_eq_none, findRun_eq_none]
  exact fun hnone => hnone r hr hrissue

theorem dropped_self (journal : Journal) : dropped journal journal = [] :=
  dropped_eq_nil fun run hrun => ⟨run, (List.mem_filter.mp hrun).1, rfl⟩

theorem watch_keeps (hop : KeepsJournal op) (hstep : watch w ⟨op, answer⟩ w') : w' = w := by
  have hjournal := journalStep_keeps hop hstep.1
  have hevicted := hstep.2
  rw [hjournal, dropped_self, List.append_nil] at hevicted
  cases w
  cases w'
  simp only at hjournal hevicted
  rw [hjournal, hevicted]

/-- A journal with one record for each issue has one for each after an upsert. -/
theorem upsertRun_nodup {journal : Journal} (h : (journal.runs.map RunRecord.issue).Nodup)
    (run : RunRecord) : ((upsertRun journal run).runs.map RunRecord.issue).Nodup := by
  rw [upsertRun_runs, List.map_cons, List.nodup_cons]
  refine ⟨?_, h.sublist (((List.take_sublist _ _).trans List.filter_sublist).map _)⟩
  intro hmem
  obtain ⟨r, hr, hissue⟩ := List.mem_map.mp hmem
  have hother := (List.mem_filter.mp (List.mem_of_mem_take hr)).2
  simp [hissue] at hother

theorem mem_inFlight_upsertRun {journal : Journal} {run r : RunRecord}
    (h : r ∈ inFlight (upsertRun journal run)) : r = run ∨ r ∈ inFlight journal := by
  obtain ⟨hmem, hflight⟩ := List.mem_filter.mp h
  rcases mem_upsertRun hmem with rfl | ⟨hmem, -⟩
  · exact .inl rfl
  · exact .inr (List.mem_filter.mpr ⟨hmem, hflight⟩)

/-- The record of the only issue in flight may be replaced. -/
theorem Only.wrote {record : RunRecord}
    {answer : Op.Answer (.writeJournal (upsertRun w.journal record))}
    (h : Only n w) (hissue : record.issue = n)
    (hstep : watch w ⟨.writeJournal (upsertRun w.journal record), answer⟩ w') : Only n w' := by
  have hjournal : w'.journal = upsertRun w.journal record ∨ w'.journal = w.journal := by
    rcases hstep.1 with hreads | ⟨-, hsame⟩
    · exact .inl hreads
    · exact .inr hsame
  have hevicted := hstep.2
  rcases hjournal with hnew | hsame
  · refine ⟨?_, ?_, ?_⟩
    · rw [hnew]
      exact upsertRun_nodup h.nodup record
    · intro run hrun
      rw [hnew] at hrun
      rcases mem_inFlight_upsertRun hrun with rfl | hrun
      · exact hissue
      · exact h.single run hrun
    · rw [hevicted, h.kept, hnew, dropped_eq_nil, List.append_nil]
      intro run hrun
      exact ⟨record, self_mem_upsertRun _ _, hissue.trans (h.single run hrun).symm⟩
  · refine ⟨?_, ?_, ?_⟩
    · rw [hsame]
      exact h.nodup
    · rw [hsame]
      exact h.single
    · rw [hevicted, h.kept, hsame, dropped_self, List.append_nil]

end Step

/-! ### The parts -/

section Parts

variable {n : ℕ} {w : Watched}

theorem workJob_only [Host] [Unicode] {job : Job} (h : Only job.number w) :
    Ensures watch (Only job.number) (fun _ => Only job.number) (workJob job) w
      fun _ => Only job.number := by
  refine ((workJob_follows job).ensures
    (fun phase w => Only job.number w ∧ Synced Reliable job w.journal phase) (emits_true _) ?_ ?_
    ⟨h, trivial⟩).mono (fun _ _ ⟨_, _, hinv⟩ => hinv.1) (fun _ _ ⟨_, _, hinv⟩ => hinv.1)
    fun _ ⟨_, _, hinv⟩ => hinv.1
  · rintro phase op answer w w' - hview ⟨honly, hsync⟩ hstep
    rw [watch_keeps (keepsJournal_of_view_none hview) hstep]
    exact ⟨honly, hsync⟩
  · rintro a b v op answer w w' - hview htrans ⟨honly, hsync⟩ hstep
    refine ⟨?_, synced_step hview hstep.1 htrans hsync⟩
    cases v with
    | wrote journal ok =>
      obtain ⟨current, record, rfl, hcurrent, hrecord⟩ := trans_wrote htrans hsync
      have hstored : current = w.journal := hcurrent.elim id Eq.symm
      rw [hstored] at hview
      obtain ⟨answer', hevent, -⟩ := view_wrote hview
      cases hevent
      exact honly.wrote hrecord.issue hstep
    | claimed ok => rwa [watch_keeps (keepsJournal_of_view hview fun _ _ => by simp) hstep]
    | unreadied ok => rwa [watch_keeps (keepsJournal_of_view hview fun _ _ => by simp) hstep]
    | read journal => rwa [watch_keeps (keepsJournal_of_view hview fun _ _ => by simp) hstep]
    | invoked round => rwa [watch_keeps (keepsJournal_of_view hview fun _ _ => by simp) hstep]

theorem watch_frame {α : Type} {p : Action α} (hp : p.Emits KeepsJournal) :
    Ensures watch (fun w' => w' = w) (fun _ w' => w' = w) p w fun _ w' => w' = w := by
  refine ensures_emits (fun w' => w' = w) hp (fun op answer s s' hop hs hstep => ?_) rfl
  rw [watch_keeps hop hstep, hs]

/-- A part that leaves the journal alone, followed by the rest. -/
theorem serial_quiet_bind {α β : Type} {p : Action α} {f : α → Action β} {inv : Watched → Prop}
    {post : β → Watched → Prop} (hp : p.Emits KeepsJournal) (h : inv w)
    (hf : ∀ x, Ensures watch inv (fun _ => inv) (f x) w post) :
    Ensures watch inv (fun _ => inv) (p >>= f) w post := by
  refine ensures_bind ((watch_frame hp).mono ?_ ?_ ?_)
  · rintro x _ rfl
    exact hf x
  · rintro _ _ rfl
    exact h
  · rintro _ rfl
    exact h

/-- At most one record is in flight. -/
def Serial (w : Watched) : Prop := ∃ n, Only n w

/-- What the decision is about may be worked on. -/
def Planned : Plan → Watched → Prop
  | .report _, w => Serial w
  | .resume issue _ _, w => Only issue.number w
  | .start issue, w => Only issue.number w

variable [Host] [Unicode] {deps : RunnerDeps}

theorem planResume_only {record : RunRecord} (h : Only n w) (hrun : record ∈ inFlight w.journal) :
    Ensures watch Serial (fun _ => Serial) (planResume deps record) w Planned := by
  have hserial : Serial w := ⟨n, h⟩
  unfold planResume
  refine serial_quiet_bind ((resumable_emits deps record).mono keepsJournal_of_planOp) hserial
    fun resumption => ?_
  split
  · exact ensures_ret hserial
  · refine ensures_bind (ensures_call hserial fun answer w' hstep => ?_)
    rw [watch_keeps (fun _ hop => Op.noConfusion hop) hstep]
    refine ensures_raise (fun issue hissue => ensures_ret ?_) fun _ _ => hserial
    have hnumber : issue.number = n := (hstep.1.1 issue hissue).trans (h.single record hrun)
    show Only issue.number w
    rwa [hnumber]

omit [Unicode] in
theorem planStart_only {skip : Option (List ℕ)} (h : Only n w) (hnone : inFlight w.journal = []) :
    Ensures watch Serial (fun _ => Serial) (planStart deps skip) w Planned := by
  have hfree : ∀ m, Only m w := by
    refine fun m => ⟨h.nodup, ?_, h.kept⟩
    rw [hnone]
    simp
  unfold planStart
  refine serial_quiet_bind ⟨fun _ hop => Op.noConfusion hop, fun answer => emits_raise answer⟩
    ⟨n, h⟩ fun listed => ?_
  dsimp only
  split
  · exact ensures_ret ⟨n, h⟩
  · exact ensures_ret (hfree _)

theorem plan_only {skip : Option (List ℕ)} (h : Only n w) :
    Ensures watch Serial (fun _ => Serial) (plan deps skip) w Planned := by
  unfold plan
  refine ensures_bind (ensures_call ⟨n, h⟩ fun journal w' hstep => ?_)
  have hsame := watch_keeps (fun _ hop => Op.noConfusion hop) hstep
  have hjournal : journal = w.journal := hstep.1.1
  rw [hsame, hjournal]
  refine ensures_ret ?_
  split
  · rename_i record rest hflight
    exact planResume_only h (hflight ▸ List.mem_cons_self)
  · rename_i hnone
    exact planStart_only h hnone

theorem carryOut_only {decision : Plan} (h : Planned decision w) :
    Ensures watch Serial (fun _ => Serial) (carryOut deps decision) w fun _ => Serial := by
  have hwork : ∀ (issue : IssueSummary) (options : WorkOptions), Only issue.number w →
      Ensures watch Serial (fun _ => Serial)
        (workIssue deps issue options >>= fun outcome => .ret (onceResult outcome)) w
        fun _ => Serial := by
    intro issue options honly
    have hserial : ∀ w', Only issue.number w' → Serial w' := fun w' hw => ⟨_, hw⟩
    have hjob : Only (newJob deps issue options).number w := honly
    exact ensures_bind ((workJob_only hjob).mono (fun _ w' hw => ensures_ret (hserial w' hw))
      (fun _ => hserial) hserial)
  cases decision with
  | report result => exact ensures_ret h
  | resume issue startRound resumption => exact hwork _ _ h
  | start issue => exact hwork _ _ h

/-- The phases of `advance`, in a world in which only issue `n` may be in flight. -/
def Looking.Fits (n : ℕ) (w : Watched) : Looking → Prop
  | .idle => True
  | .listed journal => ∀ run ∈ inFlight journal, run.issue = n
  | .reread journal current => (∀ run ∈ inFlight journal, run.issue = n) ∧ current = w.journal

omit [Host] [Unicode] in
theorem Moved.issue {record changed : RunRecord} (h : Moved record changed) :
    changed.issue = record.issue := by
  cases h <;> rfl

omit [Host] in
theorem advance_only (h : Only n w) :
    Ensures watch (Only n) (fun _ => Only n) (advance deps) w fun _ => Only n := by
  refine ((advance_follows deps).ensures (fun phase w => Only n w ∧ phase.Fits n w) (emits_true _)
    ?_ ?_ ⟨h, trivial⟩).mono (fun _ _ ⟨_, _, hinv⟩ => hinv.1) (fun _ _ ⟨_, _, hinv⟩ => hinv.1)
    fun _ ⟨_, _, hinv⟩ => hinv.1
  · rintro phase op answer w w' - hview hinv hstep
    rwa [watch_keeps (keepsJournal_of_view_none hview) hstep]
  · rintro a b v op answer w w' - hview htrans ⟨honly, hfits⟩ hstep
    cases htrans with
    | list journal =>
      cases view_read hview
      have hjournal : journal = w.journal := hstep.1.1
      rw [watch_keeps (fun _ hop => Op.noConfusion hop) hstep, hjournal]
      exact ⟨honly, honly.single⟩
    | reread journal current =>
      cases view_read hview
      have hjournal : current = w.journal := hstep.1.1
      rw [watch_keeps (fun _ hop => Op.noConfusion hop) hstep]
      exact ⟨honly, hfits, hjournal⟩
    | rewrite journal current record changed ok run moved =>
      obtain ⟨hall, rfl⟩ := hfits
      obtain ⟨answer', hevent, -⟩ := view_wrote hview
      cases hevent
      exact ⟨honly.wrote (moved.issue.trans (hall record run)) hstep, hall⟩

/-- Every call keeps it. -/
theorem call_serial (call : Call) (h : Serial w) :
    Ensures watch Serial (fun _ => Serial) call.program w fun _ => Serial := by
  obtain ⟨n, h⟩ := h
  cases call with
  | once deps skip =>
    refine ensures_bind (ensures_bind ((plan_only h).weaken fun decision w hplanned => ?_))
    exact (carryOut_only hplanned).weaken fun _ w hserial => ensures_ret hserial
  | move deps =>
    have hserial : ∀ w', Only n w' → Serial w' := fun w' hw => ⟨n, hw⟩
    exact ensures_bind ((advance_only h).mono (fun _ w' hw => ensures_ret (hserial w' hw))
      (fun _ => hserial) hserial)

end Parts

/-! ### Every sequence of calls -/

theorem Only.inFlight_le {n : ℕ} {w : Watched} (h : Only n w) :
    (inFlight w.journal).length ≤ 1 := by
  have hnodup : ((inFlight w.journal).map RunRecord.issue).Nodup :=
    h.nodup.sublist (List.filter_sublist.map _)
  have hsame : (inFlight w.journal).map RunRecord.issue =
      List.replicate (inFlight w.journal).length n := by
    rw [List.eq_replicate_iff]
    refine ⟨List.length_map _, ?_⟩
    rintro issue hissue
    obtain ⟨run, hrun, rfl⟩ := List.mem_map.mp hissue
    exact h.single run hrun
  rw [hsame, List.nodup_replicate] at hnodup
  exact hnodup

/-- **Serial execution.**  After every sequence of calls of `runOnce` and `advance` on a journal
that was empty at first, each run to any end, the journal has one record for each issue at most and
one in flight at most, and no write ever left out a record that was in flight. -/
theorem serial_execution [Host] [Unicode] (made : List (Made Call Op Op.Answer Text Unit))
    (w : Watched) (h : History watch Call.program newWatched made w) :
    (w.journal.runs.map RunRecord.issue).Nodup ∧ (inFlight w.journal).length ≤ 1 ∧
      w.evicted = [] := by
  have hstart : Serial newWatched :=
    ⟨0, List.nodup_nil, by simp [newWatched, inFlight, emptyJournal], rfl⟩
  obtain ⟨n, honly⟩ := h.keeps (fun call _ hw => call_serial call hw) hstart
  exact ⟨honly.nodup, honly.inFlight_le, honly.kept⟩

theorem steps_watch {journal journal' : Journal} {trace : List RunnerEvent}
    (h : Steps (journalStep Reliable) journal trace journal') :
    ∀ evicted, ∃ evicted', Steps watch ⟨journal, evicted⟩ trace ⟨journal', evicted'⟩ := by
  induction h with
  | nil journal => exact fun evicted => ⟨evicted, .nil _⟩
  | cons first _ ih =>
    intro evicted
    obtain ⟨evicted', hrest⟩ := ih (evicted ++ dropped _ _)
    exact ⟨evicted', .cons ⟨first, rfl⟩ hrest⟩

/-- Every history of the journal can be watched. -/
theorem history_watch [Host] [Unicode] {made : List (Made Call Op Op.Answer Text Unit)}
    {journal : Journal}
    (h : History (journalStep Reliable) Call.program emptyJournal made journal) :
    ∃ evicted, History watch Call.program newWatched made ⟨journal, evicted⟩ := by
  induction h with
  | nil => exact ⟨[], .nil⟩
  | snoc _ call trace outcome run steps ih =>
    obtain ⟨evicted, hbefore⟩ := ih
    obtain ⟨evicted', hsteps⟩ := steps_watch steps evicted
    exact ⟨evicted', hbefore.snoc call trace outcome run hsteps⟩

/-- Issue 1 is taken, its pull request is opened, and it stays in flight. -/
def serialCalls : List (Call × Script) :=
  [(.once sampleDeps none, fun _ op => some (calm op)),
    (.move sampleDeps, fun _ op => some (calm op))]

theorem serialCalls_honest : ∀ call ∈ serialCalls, call.2.Honest := by
  intro call hcall journal number issue hissue
  simp only [serialCalls, List.mem_cons, List.not_mem_nil, or_false] at hcall
  rcases hcall with rfl | rfl
  · cases hissue
    rfl
  · cases hissue
    rfl

theorem serialCalls_inFlight :
    (inFlight (rehearsed (@Call.program asciiHost asciiUnicode) serialCalls emptyJournal).2).map
      RunRecord.issue = [1] := by
  decide +kernel

theorem serial_execution_sample :
    ∃ w : Watched, (inFlight w.journal).map RunRecord.issue = [1] ∧
      (w.journal.runs.map RunRecord.issue).Nodup ∧ (inFlight w.journal).length ≤ 1 ∧
      w.evicted = [] := by
  obtain ⟨evicted, h⟩ :=
    @history_watch asciiHost asciiUnicode _ _
      (rehearsed_history (@Call.program asciiHost asciiUnicode)
      serialCalls emptyJournal (fun _ => rfl) serialCalls_honest)
  exact ⟨_, serialCalls_inFlight, @serial_execution asciiHost asciiUnicode _ _ h⟩

end Newsdeck.Runner

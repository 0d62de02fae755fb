import Newsdeck.Runner.BudgetClock
import Newsdeck.Runner.Claims

/-!
# What a session reports as spent

The number of model invocations in the summary is the length of the record of the rolling hour.

* `budgetStep` — the world of a budget under a clock, beside everything that was recorded;
* `record_suffix`, `record_eq_iff` — what the record has lost, and when it has lost nothing;
* `runUnattended_summed` — how the runs of a session that return end;
* `modelInvocations_eq_iff` — when the summary counts every invocation.
-/

namespace Newsdeck.Runner

open Ecma Effects Effects.Prog
open TimedBudget (History BudgetCall)

/-! ### The world of a budget under a clock -/

/-- The call on the budget that is behind an event. -/
def budgetCall : RunnerEvent → Option BudgetCall
  | ⟨.recordInvocation, _⟩ => some .recordInvocation
  | ⟨.recordIssue, _⟩ => some .recordIssue
  | ⟨.checkBudget, _⟩ => some .check
  | ⟨.snapshot, _⟩ => some .snapshot
  | _ => none

variable (clock : ℕ → ℕ)

def budgetMoved (state : TimedBudget × History) (event : RunnerEvent) : TimedBudget × History :=
  match budgetCall event with
  | none => state
  | some made => TimedBudget.step clock state made

/-- The budget answers for itself. -/
def BudgetAnswers (state : TimedBudget × History) : RunnerEvent → Prop
  | ⟨.checkBudget, answer⟩ => answer = (TimedBudget.check clock state.1).1
  | ⟨.snapshot, answer⟩ => answer = (TimedBudget.snapshot clock state.1).1
  | _ => True

def budgetStep (state : TimedBudget × History) (event : RunnerEvent)
    (state' : TimedBudget × History) :
    Prop :=
  BudgetAnswers clock state event ∧ state' = budgetMoved clock state event

/-- A new budget after the events. -/
def budgetAfter (limits : BudgetLimits) (events : List RunnerEvent) : TimedBudget × History :=
  events.foldl (budgetMoved clock) (TimedBudget.new clock limits, ⟨[], []⟩)

variable {clock} {limits : BudgetLimits}

theorem budgetAfter_append (events : List RunnerEvent) (event : RunnerEvent) :
    budgetAfter clock limits (events ++ [event]) =
      budgetMoved clock (budgetAfter clock limits events) event := by
  unfold budgetAfter
  rw [List.foldl_append]
  rfl

/-- The events decide where the world ends. -/
theorem steps_budget {state state' : TimedBudget × History} {trace : List RunnerEvent}
    (h : Steps (budgetStep clock) state trace state') :
    state' = trace.foldl (budgetMoved clock) state := by
  induction h with
  | nil => rfl
  | cons first _ ih => rw [ih, first.2, List.foldl_cons]

/-! ### What the record loses -/

def IsRecorded (event : RunnerEvent) : Bool := budgetCall event = some .recordInvocation

/-- The event drops what has aged out. -/
def Prunes (event : RunnerEvent) : Prop :=
  budgetCall event = some .check ∨ budgetCall event = some .snapshot

variable (clock) in
/-- The first invocation ever recorded is no older than an hour when the clock is read for it
next. -/
def FirstFresh (state : TimedBudget × History) : Prop :=
  ∀ first ∈ state.2.invocations.head?, clock (state.1.reads + 1) ≤ first + hourMs

variable (clock limits) in
/-- At every event that drops what has aged out, nothing has. -/
def NothingAged (events : List RunnerEvent) : Prop :=
  ∀ before event after, events = before ++ event :: after → Prunes event →
    FirstFresh clock (budgetAfter clock limits before)

theorem nothingAged_append (events : List RunnerEvent) (event : RunnerEvent) :
    NothingAged clock limits (events ++ [event]) ↔ NothingAged clock limits events ∧
      (Prunes event → FirstFresh clock (budgetAfter clock limits events)) := by
  constructor
  · intro h
    refine ⟨fun before earlier after hsplit => h before earlier (after ++ [event]) ?_,
      h events event [] rfl⟩
    rw [hsplit]
    simp
  · rintro ⟨hearlier, hlast⟩ before current after hsplit
    rcases after.eq_nil_or_concat with rfl | ⟨later, last, rfl⟩
    · obtain ⟨rfl, hcurrent⟩ := List.append_inj' hsplit rfl
      rw [← (List.cons.inj hcurrent).1]
      exact hlast
    · have hinit : events ++ [event] = (before ++ current :: later) ++ [last] := by
        rw [hsplit, List.concat_eq_append]
        simp
      exact hearlier before current later (List.append_inj' hinit rfl).1

variable (clock limits) in
/-- The history has every invocation. -/
theorem history_length (events : List RunnerEvent) :
    (budgetAfter clock limits events).2.invocations.length = events.countP IsRecorded := by
  induction events using List.reverseRecOn with
  | nil => rfl
  | append_singleton events event ih =>
    rw [budgetAfter_append, List.countP_append, ← ih, budgetMoved]
    cases hcall : budgetCall event with
    | none => simp [IsRecorded, hcall]
    | some made => cases made <;> simp [IsRecorded, hcall, TimedBudget.step]

/-- Dropping from the front leaves a suffix, and the whole only where nothing is dropped. -/
theorem prune_eq_iff {record history : List ℕ} (h : record <:+ history) (cutoff : ℕ) :
    Window.prune record cutoff = history ↔
      record = history ∧ ∀ first ∈ history.head?, cutoff ≤ first := by
  have hpruned : Window.prune record cutoff <:+ record := List.dropWhile_suffix _
  constructor
  · intro heq
    have hsame : record = history := by
      refine h.eq_of_length_le ?_
      rw [← heq]
      exact hpruned.length_le
    refine ⟨hsame, ?_⟩
    subst hsame
    cases record with
    | nil => simp
    | cons first rest =>
      intro head hhead
      obtain rfl : first = head := Option.some.inj hhead
      by_contra hold
      have hdrop : Window.prune (first :: rest) cutoff = Window.prune rest cutoff := by
        simp [Window.prune, Nat.lt_of_not_le hold]
      have hshort : (Window.prune rest cutoff).length ≤ rest.length :=
        (List.dropWhile_suffix _).length_le
      rw [← hdrop, heq] at hshort
      exact absurd hshort (Nat.not_succ_le_self _)
  · rintro ⟨rfl, hfirst⟩
    cases record with
    | nil => rfl
    | cons first rest =>
      have hkeep : ¬ first < cutoff := Nat.not_lt.mpr (hfirst first rfl)
      simp [Window.prune, hkeep]

section Record

variable {state : TimedBudget × History}

/-- What a call that drops keeps of the record. -/
theorem pruned_record :
    (TimedBudget.prune clock state.1).budget.invocations =
      Window.prune state.1.budget.invocations (clock (state.1.reads + 1) - hourMs) := rfl

variable (clock) in
/-- After an event the record is still a suffix of the history; it is all of it exactly when it was
and the event drops nothing. -/
theorem moved_record (h : state.1.budget.invocations <:+ state.2.invocations)
    (event : RunnerEvent) :
    (budgetMoved clock state event).1.budget.invocations <:+
        (budgetMoved clock state event).2.invocations ∧
      ((budgetMoved clock state event).1.budget.invocations =
          (budgetMoved clock state event).2.invocations ↔
        state.1.budget.invocations = state.2.invocations ∧
          (Prunes event → FirstFresh clock state)) := by
  have hpruned : (TimedBudget.prune clock state.1).budget.invocations <:+ state.2.invocations :=
    (List.dropWhile_suffix _).trans h
  have hlost : (TimedBudget.prune clock state.1).budget.invocations = state.2.invocations ↔
      state.1.budget.invocations = state.2.invocations ∧ FirstFresh clock state := by
    rw [pruned_record, prune_eq_iff h]
    simp only [Nat.sub_le_iff_le_add, FirstFresh]
  unfold budgetMoved
  cases hcall : budgetCall event with
  | none =>
    have hprunes : ¬ Prunes event := by simp [Prunes, hcall]
    exact ⟨h, by simp [hprunes]⟩
  | some made =>
    cases made with
    | recordInvocation =>
      have hprunes : ¬ Prunes event := by simp [Prunes, hcall]
      refine ⟨?_, ?_⟩
      · obtain ⟨lost, hlost⟩ := h
        exact ⟨lost, by simp [TimedBudget.step, TimedBudget.recordInvocation,
          Budget.recordInvocation, ← hlost]⟩
      · simp [TimedBudget.step, TimedBudget.recordInvocation, Budget.recordInvocation, hprunes]
    | recordIssue =>
      have hprunes : ¬ Prunes event := by simp [Prunes, hcall]
      exact ⟨h, by simp [TimedBudget.step, TimedBudget.recordIssue, Budget.recordIssue, hprunes]⟩
    | check =>
      have hprunes : Prunes event := .inl hcall
      have hsame : (TimedBudget.check clock state.1).2.budget =
          (TimedBudget.prune clock state.1).budget :=
        TimedBudget.exceeded_budget clock _
      simp only [TimedBudget.step, hsame, hprunes, true_implies]
      exact ⟨hpruned, hlost⟩
    | snapshot =>
      have hprunes : Prunes event := .inr hcall
      simp only [TimedBudget.step, hprunes, true_implies]
      exact ⟨hpruned, hlost⟩

end Record

variable (clock limits) in
/-- The record is what is left of the history, and all of it as long as nothing has aged out. -/
theorem record_after (events : List RunnerEvent) :
    (budgetAfter clock limits events).1.budget.invocations <:+
        (budgetAfter clock limits events).2.invocations ∧
      ((budgetAfter clock limits events).1.budget.invocations =
          (budgetAfter clock limits events).2.invocations ↔ NothingAged clock limits events) := by
  induction events using List.reverseRecOn with
  | nil =>
    refine ⟨List.suffix_refl _, iff_of_true rfl ?_⟩
    intro before event after hsplit
    exact absurd hsplit.symm (by simp)
  | append_singleton events event ih =>
    have hstep := moved_record clock ih.1 event
    rw [budgetAfter_append, nothingAged_append, ← ih.2]
    exact hstep

/-! ### How a session ends -/

/-- The events end with the summary being drawn up. -/
def Summed (result : UnattendedResult) (log : List RunnerEvent) : Prop :=
  ∃ before finishedAt spent elapsed,
    log = before ++ [⟨.now, finishedAt⟩, ⟨.snapshot, spent⟩, ⟨.snapshot, elapsed⟩] ∧
      result.summary.modelInvocations = spent.invocations

/-- What holds of the events so far when the part returns. -/
abbrev Logs {α : Type} (p : Action α) (log : List RunnerEvent)
    (post : α → List RunnerEvent → Prop) : Prop :=
  Ensures (Appends some) (fun _ => True) (fun _ _ => True) p log post

section Ends

variable {α β : Type} {log : List RunnerEvent}

theorem logs_bind {p : Action α} {f : α → Action β} {post : β → List RunnerEvent → Prop}
    (hf : ∀ x log', Logs (f x) log' post) : Logs (p >>= f) log post :=
  ensures_bind ((ensures_emits (fun _ => True) (emits_true p) (fun _ _ _ _ _ _ _ => trivial)
    trivial).weaken fun x log' _ => hf x log')

theorem finishSession_logs (session : Session) (stopReason : StopReason) (detail : Text) :
    Logs (finishSession session stopReason detail) log Summed := by
  unfold finishSession
  refine ensures_call trivial fun finishedAt log₁ hnow => ?_
  refine ensures_call trivial fun spent log₂ hspent => ?_
  refine ensures_call trivial fun elapsed log₃ helapsed => ensures_ret ?_
  refine ⟨log, finishedAt, spent, elapsed, ?_, rfl⟩
  rw [helapsed, hspent, hnow]
  simp

def CycleEnd.Summed : CycleEnd → List RunnerEvent → Prop
  | .finished result => Runner.Summed result
  | _ => fun _ => True

theorem finish_logs (session : Session) (stopReason : StopReason) (detail : Text) :
    Logs (finishSession session stopReason detail >>=
      fun result => .ret (CycleEnd.finished result)) log
      CycleEnd.Summed :=
  ensures_bind ((finishSession_logs session stopReason detail).weaken fun _ _ h => ensures_ret h)

theorem tolerate_logs (deps : RunnerDeps) (session : Session) (detail : ℕ → Text) :
    Logs (tolerate deps session detail) log CycleEnd.Summed := by
  unfold tolerate
  dsimp only
  split
  · exact finish_logs _ _ _
  · exact logs_bind fun _ _ => ensures_ret trivial

variable [Host] [Unicode]

theorem takeWork_logs (deps : RunnerDeps) (session : Session) :
    Logs (takeWork deps session) log CycleEnd.Summed := by
  unfold takeWork
  dsimp only
  split
  · exact finish_logs _ _ _
  · refine logs_bind fun exceeded log => ?_
    split
    · exact finish_logs _ _ _
    · refine logs_bind fun result log => ?_
      split
      · exact tolerate_logs _ _ _
      · refine logs_bind fun session log => ?_
        split
        · exact finish_logs _ _ _
        · exact ensures_ret trivial

theorem cycle_logs (deps : RunnerDeps) (session : Session) :
    Logs (cycle deps session) log CycleEnd.Summed := by
  unfold cycle
  refine logs_bind fun advanced log => ?_
  split
  · exact tolerate_logs _ _ _
  · unfold afterAdvance
    refine logs_bind fun journal log => ?_
    split
    · exact takeWork_logs _ _
    · exact ensures_ret trivial

/-- A session that returns has just drawn up its summary. -/
theorem sessionLoop_logs (deps : RunnerDeps) (turns : ℕ) :
    ∀ (session : Session) (log : List RunnerEvent),
      Logs (sessionLoop deps turns session) log fun returned log =>
        ∀ result, returned = some result → Summed result log := by
  have hstop : ∀ (session : Session) (log : List RunnerEvent),
      Logs (finishSession session .interrupted interruptedDetail >>=
        fun result => .ret (some result))
        log fun returned log => ∀ result, returned = some result → Summed result log := by
    intro session log
    refine ensures_bind ((finishSession_logs _ _ _).weaken fun result log h => ensures_ret ?_)
    rintro _ ⟨⟩
    exact h
  induction turns with
  | zero =>
    intro session log
    refine ensures_ret ?_
    rintro _ ⟨⟩
  | succ turns ih =>
    intro session log
    unfold sessionLoop
    refine logs_bind fun stop log => ?_
    split
    · exact hstop _ _
    · refine ensures_bind ((cycle_logs deps session).weaken fun ending log h => ?_)
      split
      · refine ensures_ret ?_
        rintro _ ⟨⟩
        exact h
      · exact ih _ _
      · refine logs_bind fun stop log => ?_
        split
        · exact hstop _ _
        · exact logs_bind fun _ log => ih _ _

theorem runUnattended_summed {deps : RunnerDeps} {turns : ℕ} {trace : List RunnerEvent}
    {result : UnattendedResult}
    (hrun : Run (runUnattended deps turns) trace (.returned (some result))) :
    Summed result trace := by
  have hlogs : Logs (runUnattended deps turns) [] fun returned log =>
      ∀ result, returned = some result → Summed result log :=
    logs_bind fun startedAt log => sessionLoop_logs deps turns _ log
  have hsteps := steps_appends (some : RunnerEvent → Option RunnerEvent) [] trace
  rw [List.filterMap_some, List.nil_append] at hsteps
  exact hlogs _ _ _ hrun hsteps result rfl

end Ends

/-! ### The invocations in the summary -/

/-- **What the summary counts.**  In every run of a session that returns, whatever the world answers
and however the clock goes, the summary counts every invocation that was recorded exactly when, at
each check of the budget and when the summary is drawn up, the first of them is no older than an
hour. -/
theorem modelInvocations_eq_iff [Host] [Unicode] (deps : RunnerDeps) (turns : ℕ) (clock : ℕ → ℕ)
    (limits : BudgetLimits) (trace : List RunnerEvent) (result : UnattendedResult)
    (state : TimedBudget × History)
    (hrun : Run (runUnattended deps turns) trace (.returned (some result)))
    (hsteps : Steps (budgetStep clock) (TimedBudget.new clock limits, ⟨[], []⟩) trace state) :
    ∃ events elapsed, trace = events ++ [⟨.snapshot, elapsed⟩] ∧
      (result.summary.modelInvocations = trace.countP IsRecorded ↔
        NothingAged clock limits events) := by
  obtain ⟨before, finishedAt, spent, elapsed, rfl, hspent⟩ := runUnattended_summed hrun
  have hdrawn : before ++ [⟨.now, finishedAt⟩, ⟨.snapshot, spent⟩, ⟨.snapshot, elapsed⟩] =
      (before ++ [⟨.now, finishedAt⟩] ++ [⟨.snapshot, spent⟩]) ++ [⟨.snapshot, elapsed⟩] := by simp
  rw [hdrawn] at hsteps ⊢
  obtain ⟨shown, hbefore, hlast⟩ :=
    (show Steps (budgetStep clock) _ ((before ++ [⟨.now, finishedAt⟩]) ++
    ([⟨.snapshot, spent⟩] ++ [⟨.snapshot, elapsed⟩])) state by simpa using hsteps).split
  have hshown : shown = budgetAfter clock limits (before ++ [⟨.now, finishedAt⟩]) :=
    steps_budget hbefore
  refine ⟨_, elapsed, rfl, ?_⟩
  have hafter := record_after clock limits
    (before ++ [⟨.now, finishedAt⟩] ++ [⟨.snapshot, spent⟩])
  have hcount : spent.invocations = (budgetAfter clock limits
      (before ++ [⟨.now, finishedAt⟩] ++ [⟨.snapshot, spent⟩])).1.budget.invocations.length := by
    cases hlast with
    | cons first _ =>
      have hanswer : spent = (TimedBudget.snapshot clock shown.1).1 := first.1
      rw [budgetAfter_append, ← hshown]
      exact congrArg BudgetSnapshot.invocations hanswer
  rw [hspent, hcount, ← hafter.2, List.countP_append, ← history_length clock limits]
  exact ⟨fun hlength => hafter.1.eq_of_length hlength, fun hsame => congrArg List.length hsame⟩

/-! ### Sessions of two turns -/

/-- The world in which a script answers, and the budget for itself. -/
def timing (clock : ℕ → ℕ) (script : (op : Op) → op.Answer) (state : TimedBudget × History)
    (op : Op) :
    Option (op.Answer × (TimedBudget × History)) :=
  match op with
  | .checkBudget =>
      let answer := (TimedBudget.check clock state.1).1
      some (answer, budgetMoved clock state ⟨.checkBudget, answer⟩)
  | .snapshot =>
      let answer := (TimedBudget.snapshot clock state.1).1
      some (answer, budgetMoved clock state ⟨.snapshot, answer⟩)
  | op => some (script op, budgetMoved clock state ⟨op, script op⟩)

theorem timing_steps (clock : ℕ → ℕ) (script : (op : Op) → op.Answer)
    (state : TimedBudget × History)
    (op : Op) (answer : op.Answer) (state' : TimedBudget × History)
    (h : timing clock script state op = some (answer, state')) :
    budgetStep clock state ⟨op, answer⟩ state' := by
  cases op <;> obtain ⟨rfl, rfl⟩ := Prod.mk.inj (Option.some.inj h) <;> exact ⟨by trivial, rfl⟩

/-- A session in which everything goes well. -/
def timed (clock : ℕ → ℕ) : List RunnerEvent × Outcome Text (Option UnattendedResult) ×
    (TimedBudget × History) :=
  play (timing clock calm) (@runUnattended asciiHost asciiUnicode sampleDeps 2)
    (TimedBudget.new clock sampleLimits, ⟨[], []⟩)

theorem timed_run (clock : ℕ → ℕ) :
    Run (@runUnattended asciiHost asciiUnicode sampleDeps 2) (timed clock).1 (timed clock).2.1 :=
  run_play _ _ _

theorem timed_steps (clock : ℕ → ℕ) :
    Steps (budgetStep clock) (TimedBudget.new clock sampleLimits, ⟨[], []⟩) (timed clock).1
      (timed clock).2.2 :=
  steps_play _ id (timing_steps clock calm) _ _

/-- The result of a session that returned. -/
def sessionResult {α : Type} : Outcome Text (Option α) → Option α
  | .returned result => result
  | _ => none

theorem eq_returned_of_sessionResult {α : Type} {outcome : Outcome Text (Option α)} {result : α}
    (h : sessionResult outcome = some result) : outcome = .returned (some result) := by
  cases outcome with
  | returned returned => exact congrArg _ h
  | threw e => cases h
  | interrupted => cases h

/-- No time passes between the first reading of the clock and the last. -/
theorem modelInvocations_eq_iff_atOnce :
    ∃ (result : UnattendedResult) (events : List RunnerEvent) (elapsed : BudgetSnapshot),
      (timed fun _ => 0).1 = events ++ [⟨.snapshot, elapsed⟩] ∧
      (result.summary.modelInvocations = (timed fun _ => 0).1.countP IsRecorded ↔
        NothingAged (fun _ => 0) sampleLimits events) := by
  obtain ⟨result, hresult⟩ := Option.isSome_iff_exists.mp
    (show (sessionResult (timed fun _ => 0).2.1).isSome = true by decide +kernel)
  have hrun := timed_run fun _ => 0
  rw [eq_returned_of_sessionResult hresult] at hrun
  exact ⟨result, @modelInvocations_eq_iff asciiHost asciiUnicode sampleDeps 2
    (fun _ => 0) sampleLimits
    _ result _ hrun (timed_steps _)⟩

/-- The review is recorded two hours after the coding. -/
def twoHoursLater (n : ℕ) : ℕ := if n ≤ 6 then 0 else 2 * hourMs

/-- Two invocations were recorded, and the summary counts one. -/
theorem summary_forgets :
    ∃ trace result state,
      Run (@runUnattended asciiHost asciiUnicode sampleDeps 2) trace (.returned (some result)) ∧
      Steps (budgetStep twoHoursLater) (TimedBudget.new twoHoursLater sampleLimits, ⟨[], []⟩) trace
        state ∧
      Monotone twoHoursLater ∧
      ¬ result.summary.modelInvocations = trace.countP IsRecorded := by
  have hclock : Monotone twoHoursLater := by
    intro n m hle
    unfold twoHoursLater
    split_ifs with hn hm
    · exact Nat.le_refl _
    · exact Nat.zero_le _
    · omega
    · exact Nat.le_refl _
  have hcounted : (sessionResult (timed twoHoursLater).2.1).map
      (fun result => result.summary.modelInvocations) = some 1 := by decide +kernel
  have hrecorded : (timed twoHoursLater).1.countP IsRecorded = 2 := by decide +kernel
  obtain ⟨result, hresult, hone⟩ := Option.map_eq_some_iff.mp hcounted
  have hrun := timed_run twoHoursLater
  rw [eq_returned_of_sessionResult hresult] at hrun
  refine ⟨_, result, _, hrun, timed_steps twoHoursLater, hclock, ?_⟩
  rw [hone, hrecorded]
  decide

end Newsdeck.Runner

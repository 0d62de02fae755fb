import Newsdeck.Runner.Budget

/-!
# The budget and its history

The record of a rolling window is pruned at every query.

* `TimedBudget.check_still` — while the clock stands still, a check is that of `Budget`;
* `History` — everything that was ever recorded;
* `Faithful` — the invariant: later windows see no difference between the record and the history;
* `budget_check_iff` — a check answers as the history would, and which limit it reports.
-/

namespace Newsdeck.Runner

open Ecma Window

namespace TimedBudget

variable (clock : ℕ → ℕ)

/-! ### A clock that stands still -/

section Still

variable {clock} {t : ℕ}

/-- While the clock stands still, a check answers as that of the budget does. -/
theorem check_still (timed : TimedBudget) (hstill : ∀ n, timed.reads ≤ n → clock n = t) :
    (check clock timed).1 = (timed.budget.check t).1 ∧
      (check clock timed).2.budget = (timed.budget.check t).2 := by
  have hread : ∀ n, clock (timed.reads + n) = t := fun n => hstill _ (Nat.le_add_right _ _)
  have hpruned : (prune clock timed).budget = (prune (fun _ => t) ⟨timed.budget, 0⟩).budget := by
    simp only [prune, hread, hstill _ (Nat.le_refl _)]
  have hlater : ∀ n, (prune clock timed).reads ≤ n → clock n = t := fun n hn =>
    hstill n ((Nat.le_add_right _ 2).trans hn)
  have hanswer : (timed.budget.check t).1 =
      (exceeded (fun _ => t) (prune (fun _ => t) ⟨timed.budget, 0⟩)).1 := rfl
  refine ⟨?_, (exceeded_budget clock _).trans (hpruned.trans Budget.check_snd.symm)⟩
  rw [hanswer, check, exceeded_eq, exceeded_eq, hlater _ (Nat.le_refl _),
    hlater _ (reads_le_readsForIssues _),
    hlater _ ((reads_le_readsForIssues _).trans (readsForIssues_le_readsForRuntime _)), hpruned]

end Still

/-! ### The unpruned history -/

/-- Everything that was ever recorded. -/
structure History where
  invocations : List ℕ
  issues : List ℕ
  deriving DecidableEq, Repr

inductive BudgetCall where
  | recordInvocation
  | recordIssue
  | check
  | snapshot
  deriving DecidableEq, Repr

/-- One call on the budget; what it records also goes to the history. -/
def step (state : TimedBudget × History) : BudgetCall → TimedBudget × History
  | .recordInvocation =>
      (recordInvocation clock state.1,
        { state.2 with invocations := state.2.invocations ++ [clock state.1.reads] })
  | .recordIssue =>
      (recordIssue clock state.1, { state.2 with issues := state.2.issues ++ [clock state.1.reads] })
  | .check => ((check clock state.1).2, state.2)
  | .snapshot => ((snapshot clock state.1).2, state.2)

/-- A new budget after the calls. -/
def after (limits : BudgetLimits) (calls : List BudgetCall) : TimedBudget × History :=
  calls.foldl (step clock) (new clock limits, ⟨[], []⟩)

/-- The budget that holds the history. -/
def holding (timed : TimedBudget) (history : History) : TimedBudget :=
  { timed with
    budget := { timed.budget with invocations := history.invocations, issues := history.issues } }

/-- What a check answers where nothing is ever dropped: it reads the clock as often. -/
def checkHistory (timed : TimedBudget) (history : History) : Option BudgetExceeded :=
  (exceeded clock ((prune clock timed).holding history)).1

/-- How many of the times lie in the closed window that ends now. -/
def inLast (times : List ℕ) (now windowMs : ℕ) : ℕ :=
  (times.filter fun at_ => now ≤ at_ + windowMs ∧ at_ ≤ now).length

/-- The invocations of the last hour reach their limit. -/
def FullHour (limits : BudgetLimits) (history : History) (now : ℕ) : Prop :=
  limits.maxModelInvocationsPerHour > 0 ∧
    inLast history.invocations now hourMs ≥ limits.maxModelInvocationsPerHour

/-- The issues of the last day reach their limit. -/
def FullDay (limits : BudgetLimits) (history : History) (now : ℕ) : Prop :=
  limits.maxIssuesPerDay > 0 ∧ inLast history.issues now dayMs ≥ limits.maxIssuesPerDay

/-- The session has lasted as long as it may. -/
def Expired (limits : BudgetLimits) (startedAt now : ℕ) : Prop :=
  limits.maxRuntimeHours > 0 ∧ now - startedAt ≥ limits.maxRuntimeHours * 60 * 60 * 1000

instance (limits : BudgetLimits) (history : History) (now : ℕ) :
    Decidable (FullHour limits history now) :=
  inferInstanceAs (Decidable (_ ∧ _))

instance (limits : BudgetLimits) (history : History) (now : ℕ) :
    Decidable (FullDay limits history now) :=
  inferInstanceAs (Decidable (_ ∧ _))

instance (limits : BudgetLimits) (startedAt now : ℕ) : Decidable (Expired limits startedAt now) :=
  inferInstanceAs (Decidable (_ ∧ _))

/-- Later windows see no difference between the record and the history. -/
structure Faithful (limits : BudgetLimits) (timed : TimedBudget) (history : History) : Prop where
  limits : timed.budget.limits = limits
  startedAt : timed.budget.startedAt = clock 0
  invocations : Agrees timed.budget.invocations history.invocations (clock timed.reads - hourMs)
  issues : Agrees timed.budget.issues history.issues (clock timed.reads - dayMs)
  recordedInvocations : ∀ at_ ∈ history.invocations, at_ ≤ clock timed.reads
  recordedIssues : ∀ at_ ∈ history.issues, at_ ≤ clock timed.reads

namespace Faithful

variable {clock} {limits : BudgetLimits} {timed : TimedBudget} {history : History}

theorem new : Faithful clock limits (new clock limits) ⟨[], []⟩ where
  limits := rfl
  startedAt := rfl
  invocations := fun _ _ => rfl
  issues := fun _ _ => rfl
  recordedInvocations := fun _ h => absurd h List.not_mem_nil
  recordedIssues := fun _ h => absurd h List.not_mem_nil

/-- The invariant outlives further readings of the clock. -/
theorem later (hclock : Monotone clock) (h : Faithful clock limits timed history)
    {timed' : TimedBudget} (hbudget : timed'.budget = timed.budget)
    (hreads : timed.reads ≤ timed'.reads) : Faithful clock limits timed' history where
  limits := by rw [hbudget, h.limits]
  startedAt := by rw [hbudget, h.startedAt]
  invocations := by
    rw [hbudget]
    exact h.invocations.later (Nat.sub_le_sub_right (hclock hreads) _)
  issues := by
    rw [hbudget]
    exact h.issues.later (Nat.sub_le_sub_right (hclock hreads) _)
  recordedInvocations at_ hat := (h.recordedInvocations at_ hat).trans (hclock hreads)
  recordedIssues at_ hat := (h.recordedIssues at_ hat).trans (hclock hreads)

theorem recordInvocation (hclock : Monotone clock) (h : Faithful clock limits timed history) :
    Faithful clock limits (recordInvocation clock timed)
      { history with invocations := history.invocations ++ [clock timed.reads] } := by
  have hlater : Faithful clock limits ⟨timed.budget, timed.reads + 1⟩ history :=
    h.later hclock rfl (Nat.le_succ _)
  refine ⟨hlater.limits, hlater.startedAt, hlater.invocations.append _, hlater.issues, ?_,
    hlater.recordedIssues⟩
  intro at_ hat
  rcases List.mem_append.mp hat with hold | hnew
  · exact hlater.recordedInvocations at_ hold
  · rw [List.mem_singleton.mp hnew]
    exact hclock (Nat.le_succ _)

theorem recordIssue (hclock : Monotone clock) (h : Faithful clock limits timed history) :
    Faithful clock limits (recordIssue clock timed)
      { history with issues := history.issues ++ [clock timed.reads] } := by
  have hlater : Faithful clock limits ⟨timed.budget, timed.reads + 1⟩ history :=
    h.later hclock rfl (Nat.le_succ _)
  refine ⟨hlater.limits, hlater.startedAt, hlater.invocations, hlater.issues.append _,
    hlater.recordedInvocations, ?_⟩
  intro at_ hat
  rcases List.mem_append.mp hat with hold | hnew
  · exact hlater.recordedIssues at_ hold
  · rw [List.mem_singleton.mp hnew]
    exact hclock (Nat.le_succ _)

/-- Each cutoff was read before the windows that come, so what it drops is in none of them. -/
theorem prune (hclock : Monotone clock) (h : Faithful clock limits timed history) :
    Faithful clock limits (prune clock timed) history := by
  have hlater : Faithful clock limits ⟨timed.budget, timed.reads + 2⟩ history :=
    h.later hclock rfl (Nat.le_add_right _ _)
  have hday : clock timed.reads ≤ clock (timed.reads + 2) := hclock (Nat.le_add_right _ _)
  have hhour : clock (timed.reads + 1) ≤ clock (timed.reads + 2) := hclock (Nat.le_succ _)
  exact ⟨hlater.limits, hlater.startedAt,
    hlater.invocations.prune (Nat.sub_le_sub_right hhour _),
    hlater.issues.prune (Nat.sub_le_sub_right hday _),
    hlater.recordedInvocations, hlater.recordedIssues⟩

theorem check (hclock : Monotone clock) (h : Faithful clock limits timed history) :
    Faithful clock limits (check clock timed).2 history :=
  (h.prune hclock).later hclock (exceeded_budget clock _) (reads_le_exceeded clock _)

theorem snapshot (hclock : Monotone clock) (h : Faithful clock limits timed history) :
    Faithful clock limits (snapshot clock timed).2 history :=
  (h.prune hclock).later hclock rfl (Nat.le_succ _)

end Faithful

variable {clock} {limits : BudgetLimits}

/-- Every call keeps the record faithful. -/
theorem faithful_step (hclock : Monotone clock) {state : TimedBudget × History}
    (h : Faithful clock limits state.1 state.2) (call : BudgetCall) :
    Faithful clock limits (step clock state call).1 (step clock state call).2 := by
  cases call with
  | recordInvocation => exact h.recordInvocation hclock
  | recordIssue => exact h.recordIssue hclock
  | check => exact h.check hclock
  | snapshot => exact h.snapshot hclock

theorem faithful_after (hclock : Monotone clock) (calls : List BudgetCall) :
    Faithful clock limits (after clock limits calls).1 (after clock limits calls).2 := by
  unfold after
  induction calls using List.reverseRecOn with
  | nil => exact Faithful.new
  | append_singleton calls call ih =>
    rw [List.foldl_append]
    exact faithful_step hclock ih call

/-- Where nothing was recorded later than now, the window count is that of the closed window. -/
theorem within_eq_inLast {times : List ℕ} {now : ℕ} (h : ∀ at_ ∈ times, at_ ≤ now) (windowMs : ℕ) :
    Budget.within times now windowMs = inLast times now windowMs := by
  unfold Budget.within since inLast
  refine congrArg List.length (List.filter_congr fun at_ hat => ?_)
  have hle := h at_ hat
  exact decide_eq_decide.mpr (by omega)

namespace Faithful

variable {timed : TimedBudget} {history : History} {n : ℕ}

theorem within_invocations (hclock : Monotone clock) (h : Faithful clock limits timed history)
    (hn : timed.reads ≤ n) :
    Budget.within timed.budget.invocations (clock n) hourMs =
      inLast history.invocations (clock n) hourMs :=
  (h.invocations _ (Nat.sub_le_sub_right (hclock hn) _)).trans
    (within_eq_inLast (fun at_ hat => (h.recordedInvocations at_ hat).trans (hclock hn)) _)

theorem within_issues (hclock : Monotone clock) (h : Faithful clock limits timed history)
    (hn : timed.reads ≤ n) :
    Budget.within timed.budget.issues (clock n) dayMs = inLast history.issues (clock n) dayMs :=
  (h.issues _ (Nat.sub_le_sub_right (hclock hn) _)).trans
    (within_eq_inLast (fun at_ hat => (h.recordedIssues at_ hat).trans (hclock hn)) _)

/-- The three limits, counted over the history. -/
theorem exceeded_holding (hclock : Monotone clock) (h : Faithful clock limits timed history) :
    (exceeded clock timed).1 = (exceeded clock (timed.holding history)).1 := by
  have hinvocations : Budget.within timed.budget.invocations (clock timed.reads) hourMs =
      Budget.within history.invocations (clock timed.reads) hourMs :=
    h.invocations _ (Nat.le_refl _)
  have hissues : Budget.within timed.budget.issues (clock timed.readsForIssues) dayMs =
      Budget.within history.issues (clock timed.readsForIssues) dayMs :=
    h.issues _ (Nat.sub_le_sub_right (hclock (reads_le_readsForIssues timed)) _)
  rw [exceeded_eq, exceeded_eq]
  dsimp only
  rw [hinvocations, hissues]
  rfl

/-- Which limit a check reports, told by the windows over the history. -/
theorem exceeded_kind (hclock : Monotone clock) (h : Faithful clock limits timed history) :
    (exceeded clock timed).1.map BudgetExceeded.kind =
      if FullHour limits history (clock timed.reads) then some .invocations
      else if FullDay limits history (clock timed.readsForIssues) then some .issues
      else if Expired limits (clock 0) (clock timed.readsForRuntime) then some .runtime
      else none := by
  rw [exceeded_eq]
  dsimp only
  rw [h.within_invocations hclock (Nat.le_refl _),
    h.within_issues hclock (reads_le_readsForIssues timed), h.limits, h.startedAt]
  show Option.map BudgetExceeded.kind
    (if FullHour limits history (clock timed.reads) then some _
    else if FullDay limits history (clock timed.readsForIssues) then some _
    else if Expired limits (clock 0) (clock timed.readsForRuntime) then some _ else none) = _
  rw [apply_ite (Option.map _), apply_ite (Option.map _), apply_ite (Option.map _)]
  rfl

end Faithful

/-- A check after any calls answers as it would on everything that was recorded.  It reports the first of
the limits that is reached: the invocations of the closed last hour, the issues of the closed last day,
the time since the session began. -/
theorem budget_check_iff (hclock : Monotone clock) (limits : BudgetLimits) (calls : List BudgetCall) :
    let timed := (after clock limits calls).1
    let history := (after clock limits calls).2
    let answer := (check clock timed).1
    let fullHour := FullHour limits history (clock (prune clock timed).reads)
    let fullDay := FullDay limits history (clock (prune clock timed).readsForIssues)
    let expired := Expired limits (clock 0) (clock (prune clock timed).readsForRuntime)
    answer = checkHistory clock timed history ∧
      (answer.map BudgetExceeded.kind = some .invocations ↔ fullHour) ∧
      (answer.map BudgetExceeded.kind = some .issues ↔ ¬ fullHour ∧ fullDay) ∧
      (answer.map BudgetExceeded.kind = some .runtime ↔ ¬ fullHour ∧ ¬ fullDay ∧ expired) := by
  have hfaithful : Faithful clock limits (after clock limits calls).1 (after clock limits calls).2 :=
    faithful_after hclock calls
  have hpruned := hfaithful.prune hclock
  intro timed history answer fullHour fullDay expired
  refine ⟨hpruned.exceeded_holding hclock, ?_⟩
  have hkind : answer.map BudgetExceeded.kind =
      if fullHour then some .invocations else if fullDay then some .issues
      else if expired then some .runtime else none := hpruned.exceeded_kind hclock
  rw [hkind]
  split_ifs with hhour hday hexpired
  · simp [hhour]
  · simp [hhour, hday]
  · simp [hhour, hday, hexpired]
  · simp [hhour, hday, hexpired]

/-- A clock that gains ten minutes with every reading. -/
theorem budget_check_slow_clock :
    Monotone (fun n => n * 600000) ∧
      ((check (fun n => n * 600000) (after (fun n => n * 600000) ⟨2, 0, 0⟩
        [.recordInvocation, .check, .recordInvocation, .recordInvocation]).1).1.map
          BudgetExceeded.kind = some .invocations ↔
        FullHour ⟨2, 0, 0⟩ (after (fun n => n * 600000) ⟨2, 0, 0⟩
          [.recordInvocation, .check, .recordInvocation, .recordInvocation]).2 (9 * 600000)) := by
  have hmono : Monotone (fun n : ℕ => n * 600000) := fun _ _ h => Nat.mul_le_mul_right _ h
  exact ⟨hmono, (budget_check_iff hmono ⟨2, 0, 0⟩
    [.recordInvocation, .check, .recordInvocation, .recordInvocation]).2.1⟩

/-- Where two limits are reached, only the first is told. -/
theorem second_limit_untold :
    ¬ ∀ (clock : ℕ → ℕ) (limits : BudgetLimits) (calls : List BudgetCall), Monotone clock →
      let timed := (after clock limits calls).1
      ((check clock timed).1.map BudgetExceeded.kind = some .issues ↔
        FullDay limits (after clock limits calls).2
          (clock (prune clock timed).readsForIssues)) := by
  intro hclaim
  have hissues := hclaim (fun _ => 0) ⟨1, 1, 0⟩ [.recordInvocation, .recordIssue] monotone_const
  have hfull : FullDay ⟨1, 1, 0⟩ (after (fun _ => 0) ⟨1, 1, 0⟩ [.recordInvocation, .recordIssue]).2 0 :=
    ⟨by decide, by decide⟩
  have hfirst : (check (fun _ => 0)
      (after (fun _ => 0) ⟨1, 1, 0⟩ [.recordInvocation, .recordIssue]).1).1.map BudgetExceeded.kind =
        some .invocations := by decide +kernel
  exact absurd (hfirst.symm.trans (hissues.mpr hfull)) (by decide)

end TimedBudget

end Newsdeck.Runner

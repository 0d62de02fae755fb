import Newsdeck.Loop.State
import Newsdeck.Library.Runs

/-!
# The retry limit over whole runs

One pull request is evaluated again and again, with whatever reviews, checks, flags and tier results
it has at that moment; between two evaluations only the recorded state survives.  The retry counter
of that state is what the gate compares with the limit.

* `evaluate_reviewAttempts` — a round costs one attempt exactly when it dispatches a fix;
* `dispatches_le_limit` — no sequence of evaluations dispatches more fixes than the limit allows,
  the counter neither falls nor passes the limit, and at the limit no change is requested any more.
-/

namespace Newsdeck.Loop

open Ecma

variable [Host]

/-- One evaluation: what the gate observes (its two retry fields aside) and what is recorded. -/
structure Evaluation where
  input : GateInput
  issue : Option ℕ∞
  headSha : Text
  atTime : Text
  findings : List FindingRecord

/-- Evaluate under the state left by the previous round, and record the round. -/
def evaluate (maxReviewAttempts : ℕ) (state : LoopState) (e : Evaluation) :
    GateOutcome × LoopState :=
  let outcome := decideMerge { e.input with
    reviewAttempts := state.reviewAttempts
    maxReviewAttempts := maxReviewAttempts }
  (outcome, recordRound
    { state := { state with issue := e.issue }
      headSha := e.headSha
      reviewStatus := outcome.review.status
      decision := outcome.decision
      atTime := e.atTime
      findings := e.findings })

/-- **What a round costs.** -/
theorem evaluate_reviewAttempts (limit : ℕ) (state : LoopState) (e : Evaluation) :
    (evaluate limit state e).2.reviewAttempts =
      state.reviewAttempts + if (evaluate limit state e).1.shouldDispatchFix then 1 else 0 := by
  have hdispatch := decideMerge_dispatch_iff { e.input with
    reviewAttempts := state.reviewAttempts
    maxReviewAttempts := limit }
  unfold evaluate
  rw [recordRound_reviewAttempts]
  simp only [hdispatch]

/-- A round that requests changes leaves the counter at most at the limit. -/
theorem evaluate_changesRequested {limit : ℕ} {state : LoopState} {e : Evaluation}
    (h : (evaluate limit state e).1.decision = .changesRequested) : state.reviewAttempts < limit :=
  decideMerge_changesRequested_lt h

theorem evaluate_le_limit (limit : ℕ) (state : LoopState) (e : Evaluation)
    (h : state.reviewAttempts ≤ limit) : (evaluate limit state e).2.reviewAttempts ≤ limit := by
  rw [evaluate_reviewAttempts]
  split
  · rename_i hfix
    have := evaluate_changesRequested ((decideMerge_dispatch_iff _).mp hfix)
    omega
  · omega

theorem final_le_limit (limit : ℕ) (state : LoopState) (run : List Evaluation)
    (h : state.reviewAttempts ≤ limit) :
    (Machine.final (evaluate limit) state run).reviewAttempts ≤ limit :=
  Machine.invariant (evaluate limit) (fun s => s.reviewAttempts ≤ limit) (fun _ => True)
    (fun s e hs _ => evaluate_le_limit limit s e hs) run state h fun _ _ => trivial

theorem reviewAttempts_le_final (limit : ℕ) (state : LoopState) (run : List Evaluation) :
    state.reviewAttempts ≤ (Machine.final (evaluate limit) state run).reviewAttempts :=
  Machine.monotone_final (evaluate limit) LoopState.reviewAttempts
    (fun s e => by rw [evaluate_reviewAttempts]; omega) state run

/-- Every dispatched fix is counted. -/
theorem final_reviewAttempts (limit : ℕ) (state : LoopState) (run : List Evaluation) :
    (Machine.final (evaluate limit) state run).reviewAttempts =
      state.reviewAttempts +
        (Machine.outputs (evaluate limit) state run).countP GateOutcome.shouldDispatchFix :=
  Machine.counter_final (evaluate limit) LoopState.reviewAttempts GateOutcome.shouldDispatchFix
    (fun s e => evaluate_reviewAttempts limit s e) state run

/-- At the limit no change is requested any more. -/
theorem outputs_at_limit (limit : ℕ) (run : List Evaluation) :
    ∀ state : LoopState, state.reviewAttempts = limit →
      ∀ o ∈ Machine.outputs (evaluate limit) state run, o.decision ≠ .changesRequested := by
  induction run with
  | nil => intro state _ o ho; simp at ho
  | cons e run ih =>
    intro state hstate o ho
    have hstop : (evaluate limit state e).1.decision ≠ .changesRequested := by
      intro hdec
      have := evaluate_changesRequested hdec
      omega
    rw [Machine.outputs_cons, List.mem_cons] at ho
    rcases ho with rfl | ho
    · exact hstop
    · refine ih (evaluate limit state e).2 ?_ o ho
      have hcount : (evaluate limit state e).1.shouldDispatchFix = false := by
        by_contra hfix
        exact hstop ((decideMerge_dispatch_iff _).mp ((Bool.not_eq_false _).mp hfix))
      rw [evaluate_reviewAttempts, hcount, hstate]
      simp

/-- **The retry limit.**  Cut a run of evaluations anywhere: all of it dispatches at most `limit`
fixes; the counter at the cut is at most the counter at the end, which is at most the limit; and
when the counter stands at the limit at the cut, no later evaluation requests changes. -/
theorem dispatches_le_limit (limit : ℕ) (issue : Option ℕ∞) (earlier later : List Evaluation) :
    (Machine.outputs (evaluate limit) (initialState issue) (earlier ++ later)).countP
        GateOutcome.shouldDispatchFix ≤ limit ∧
      (Machine.final (evaluate limit) (initialState issue) earlier).reviewAttempts ≤
        (Machine.final (evaluate limit) (initialState issue) (earlier ++ later)).reviewAttempts ∧
      (Machine.final (evaluate limit) (initialState issue) (earlier ++ later)).reviewAttempts ≤
        limit ∧
      ((Machine.final (evaluate limit) (initialState issue) earlier).reviewAttempts = limit →
        ∀ o ∈ Machine.outputs (evaluate limit)
          (Machine.final (evaluate limit) (initialState issue) earlier) later,
          o.decision ≠ .changesRequested) := by
  have hstart : (initialState issue).reviewAttempts ≤ limit := Nat.zero_le _
  have hfinal := final_le_limit limit (initialState issue) (earlier ++ later) hstart
  refine ⟨?_, ?_, hfinal, fun hlimit => outputs_at_limit limit later _ hlimit⟩
  · have hcount := final_reviewAttempts limit (initialState issue) (earlier ++ later)
    omega
  · rw [Machine.final_append]
    exact reviewAttempts_le_final limit _ later

end Newsdeck.Loop

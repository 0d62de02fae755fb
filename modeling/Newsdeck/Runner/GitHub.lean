import Newsdeck.Ecma.Unicode
import Newsdeck.Loop.Eligibility

/-!
# What the runner reads from GitHub

The shapes the adapter returns, and the rollup of a pull request's checks to the one verdict the
runner waits for.

* `summariseChecks_failing` — when the verdict is `failing`.
-/

namespace Newsdeck.Runner

open Ecma Loop

structure GhIssue where
  number : ℕ
  title : Text
  body : Option Text
  state : Text
  labels : List Text
  deriving DecidableEq, Repr

structure GhCheck where
  name : Option Text
  context : Option Text
  status : Option Text
  conclusion : Option Text
  state : Option Text
  deriving DecidableEq, Repr

structure GhPullRequest where
  number : ℕ
  state : Text
  mergeStateStatus : Option Text
  statusCheckRollup : Option (List GhCheck)
  deriving DecidableEq, Repr

inductive Mergeability where
  | clean
  | behind
  | conflicted
  | blocked
  | unknown
  deriving DecidableEq, Repr

structure CreatePullRequestInput where
  base : Text
  head : Text
  title : Text
  body : Text

def toSummary [Host] (issue : GhIssue) : IssueSummary where
  number := issue.number
  title := issue.title
  state := if Host.toLowerCase issue.state = lit "closed" then .closed else .opened
  labels := issue.labels
  body := issue.body

/-! ### The rollup of the checks -/

inductive ChecksVerdict where
  | pending
  | passing
  | failing
  | none
  deriving DecidableEq, Repr

def ChecksVerdict.text : ChecksVerdict → Text
  | .pending => lit "pending"
  | .passing => lit "passing"
  | .failing => lit "failing"
  | .none => lit "none"

variable [Unicode]

def GhCheck.title (check : GhCheck) : Text :=
  (check.name.or check.context).getD (lit "unnamed check")

def GhCheck.conclusionText (check : GhCheck) : Text :=
  Unicode.toUpperCase ((check.conclusion.or check.state).getD [])

/-- The check has not come to an end. -/
def GhCheck.isPending (check : GhCheck) : Bool :=
  let status := Unicode.toUpperCase (check.status.getD [])
  (status ≠ [] && status ≠ lit "COMPLETED") ||
    check.conclusionText ∈ [lit "PENDING", lit "EXPECTED", []]

/-- The check came to an end, and not to a good one. -/
def GhCheck.isFailing (check : GhCheck) : Bool :=
  !check.isPending && check.conclusionText ∉ [lit "SUCCESS", lit "NEUTRAL", lit "SKIPPED"]

def summariseChecks (pullRequest : GhPullRequest) : ChecksVerdict × List Text :=
  let checks := pullRequest.statusCheckRollup.getD []
  if checks.length = 0 then (.none, [])
  else
    let failing := (checks.filter GhCheck.isFailing).map GhCheck.title
    if failing.length > 0 then (.failing, failing)
    else (if checks.any GhCheck.isPending then .pending else .passing, [])

/-- One check that ended badly is enough, whatever the others do. -/
theorem summariseChecks_failing (pullRequest : GhPullRequest) :
    (summariseChecks pullRequest).1 = .failing ↔
      ∃ check ∈ pullRequest.statusCheckRollup.getD [], check.isFailing = true := by
  unfold summariseChecks
  dsimp only
  by_cases hnone : (pullRequest.statusCheckRollup.getD []).length = 0
  · rw [if_pos hnone, List.length_eq_zero_iff.mp hnone]
    simp
  · rw [if_neg hnone]
    by_cases hfailing :
        (((pullRequest.statusCheckRollup.getD []).filter GhCheck.isFailing).map GhCheck.title).length
          > 0
    · rw [if_pos hfailing]
      rw [List.length_map] at hfailing
      obtain ⟨check, hcheck⟩ := List.exists_mem_of_length_pos hfailing
      exact iff_of_true rfl ⟨check, List.mem_filter.mp hcheck⟩
    · rw [if_neg hfailing]
      rw [List.length_map, gt_iff_lt, List.length_pos_iff, not_not, List.filter_eq_nil_iff]
        at hfailing
      refine iff_of_false ?_ ?_
      · show ¬ (if _ then ChecksVerdict.pending else ChecksVerdict.passing) = .failing
        split <;> simp
      · rintro ⟨check, hmem, hcheck⟩
        exact hfailing check hmem hcheck

end Newsdeck.Runner

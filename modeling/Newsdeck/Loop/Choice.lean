import Newsdeck.Loop.Eligibility

/-!
# Which issue is chosen

* `Ready` — what a person would say makes an issue ready;
* `selectable_iff` — the assessment of an issue asks for just that;
* `candidate_perm`, `selectNextIssue_perm` — the order of the list does not matter;
* `selectNextIssue_chooses` — the choice, for every list of distinct issues.
-/

namespace Newsdeck.Loop

open Ecma

/-- The issue depends on the number: its body declares it, or declares nothing and the map names
it. -/
def DependsOn (policy : SelectionPolicy) (issue : IssueSummary) (number : ℕ) : Prop :=
  if (parseDependencyDeclaration issue.body).declared then
    number ∈ (parseDependencyDeclaration issue.body).dependencies
  else ∃ entries ∈ policy.fallbackDependencies, ∃ numbers ∈ entries.get? issue.number,
    number ∈ numbers

theorem mem_effectiveDependencies {policy : SelectionPolicy} {issue : IssueSummary} {number : ℕ} :
    number ∈ effectiveDependencies policy issue ↔ DependsOn policy issue number := by
  unfold effectiveDependencies DependsOn
  dsimp only
  split
  · rfl
  · cases policy.fallbackDependencies with
    | none => simp
    | some entries => cases hget : entries.get? issue.number <;> simp [hget]

/-- The issue is open and may be taken: it carries the required label and no excluded one, is not
skipped, and all it depends on is on the list and closed. -/
structure Ready (issues : List IssueSummary) (policy : SelectionPolicy) (issue : IssueSummary) :
    Prop where
  opened : issue.state = .opened
  required : policy.requiredLabel ∈ issue.labels
  excluded : ∀ label ∈ policy.excludedLabels, label ∉ issue.labels
  skipped : ∀ numbers ∈ policy.skip, issue.number ∉ numbers
  closed : ∀ number, DependsOn policy issue number → InState issues .closed number

section Choice

variable {issues issues' : List IssueSummary} {policy : SelectionPolicy}

theorem selectable_iff (h : Distinct issues) (issue : IssueSummary) :
    selectable issues policy issue = true ↔ Ready issues policy issue := by
  unfold selectable isOpen
  rw [Bool.and_eq_true, decide_eq_true_iff, candidate_eligible h]
  simp only [mem_effectiveDependencies]
  constructor
  · rintro ⟨hopened, ⟨hrequired, hexcluded⟩, hskipped, hclosed⟩
    exact ⟨hopened, hrequired, hexcluded, hskipped, hclosed⟩
  · rintro ⟨hopened, hrequired, hexcluded, hskipped, hclosed⟩
    exact ⟨hopened, ⟨hrequired, hexcluded⟩, hskipped, hclosed⟩

theorem Distinct.perm (h : Distinct issues) (hperm : issues.Perm issues') : Distinct issues' :=
  (hperm.map IssueSummary.number).nodup_iff.mp h

/-! ### The order of the list -/

theorem byNumber_perm (h : Distinct issues) (hperm : issues.Perm issues') (number : ℕ) :
    (byNumber issues).get? number = (byNumber issues').get? number := by
  refine Option.ext fun issue => ?_
  rw [byNumber_get? h, byNumber_get? (h.perm hperm), hperm.mem_iff]

/-- An issue is assessed alike in every order of the list. -/
theorem candidate_perm (h : Distinct issues) (hperm : issues.Perm issues') (issue : IssueSummary) :
    candidate issues policy issue = candidate issues' policy issue := by
  have hstate : dependencyState issues = dependencyState issues' := by
    refine funext fun number => ?_
    unfold dependencyState
    rw [byNumber_perm h hperm]
  unfold candidate
  rw [hstate]

theorem evaluateCandidates_perm (h : Distinct issues) (hperm : issues.Perm issues') :
    evaluateCandidates issues policy = evaluateCandidates issues' policy := by
  have hcandidate : candidate issues policy = candidate issues' policy :=
    funext fun issue => candidate_perm h hperm issue
  unfold evaluateCandidates
  rw [hcandidate]
  refine Priority.byKey_perm _ ((hperm.filter isOpen).map _) ?_
  simp only [List.forall_mem_map]
  intro a ha b hb hab
  have hnumber : a.number = b.number := congrArg (fun k => (ofLex k).2) hab
  rw [h.eq (List.mem_of_mem_filter ha) (List.mem_of_mem_filter hb) hnumber]

theorem selectNextIssue_perm (h : Distinct issues) (hperm : issues.Perm issues') :
    selectNextIssue issues policy = selectNextIssue issues' policy := by
  unfold selectNextIssue
  rw [evaluateCandidates_perm h hperm]

end Choice

/-! ### The choice -/

/-- **The choice.**  On a list of distinct issues an issue is selected exactly when some issue is
ready; it is the first of these by priority and number; and the result is that of every order of the
list. -/
theorem selectNextIssue_chooses {issues : List IssueSummary} (h : Distinct issues)
    (policy : SelectionPolicy) :
    ((selectNextIssue issues policy).selected ≠ none ↔
      ∃ issue ∈ issues, Ready issues policy issue) ∧
    (∀ issue, (selectNextIssue issues policy).selected = some issue ↔
      issue ∈ issues ∧ Ready issues policy issue ∧ ∀ other ∈ issues, Ready issues policy other →
        priorityRank issue.labels policy.priorityLabels <
          priorityRank other.labels policy.priorityLabels ∨
          priorityRank issue.labels policy.priorityLabels =
            priorityRank other.labels policy.priorityLabels ∧
            issue.number ≤ other.number) ∧
    ∀ issues', issues.Perm issues' → selectNextIssue issues policy =
      selectNextIssue issues' policy := by
  refine ⟨?_, fun issue => ?_, fun issues' hperm => selectNextIssue_perm h hperm⟩
  · rw [Ne, selectNextIssue_none]
    simp only [selectable_iff h]
    push Not
    rfl
  · rw [selectNextIssue_leads h]
    unfold Priority.Leads priorityKey
    simp only [selectable_iff h, Prod.Lex.toLex_le_toLex]

/-- An issue that waited for another. -/
def waited : List IssueSummary :=
  [⟨1, lit "Read the feeds", .closed, [], none⟩,
    ⟨2, lit "Group the articles", .opened, [lit "agent:ready"], some (lit "Depends on: #1")⟩]

theorem selectNextIssue_chooses_waited :
    (selectNextIssue waited defaultSelectionPolicy).selected = waited[1]? ∧
      selectNextIssue waited defaultSelectionPolicy =
        selectNextIssue waited.reverse defaultSelectionPolicy :=
  ⟨by decide +kernel,
    (selectNextIssue_chooses (by decide +kernel) defaultSelectionPolicy).2.2 _
      waited.reverse_perm.symm⟩

end Newsdeck.Loop

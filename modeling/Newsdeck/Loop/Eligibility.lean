import Mathlib.Data.Prod.Lex
import Newsdeck.Library.Priority
import Newsdeck.Loop.Dependencies

/-!
# Choosing the next issue

Every open issue is assessed against the selection policy, the assessments are ordered by priority
label and issue number, and the first eligible one is taken.

* `candidate_eligible` — what makes one issue eligible;
* `eligibleIn_iff` — and what makes an issue of a list eligible there;
* `selectNextIssue_none`, `selectNextIssue_leads` — which issue is selected;
* `selectNextIssue_claimable` — and that it may be.
-/

namespace Newsdeck.Loop

open Ecma

inductive IssueState where
  | opened
  | closed
  deriving DecidableEq, Repr

def IssueState.text : IssueState → Text
  | .opened => lit "open"
  | .closed => lit "closed"

structure IssueSummary where
  number : ℕ
  title : Text
  state : IssueState
  labels : List Text
  body : Option Text
  deriving DecidableEq, Repr

structure DependencyState where
  number : ℕ
  satisfied : Bool
  detail : Text
  deriving DecidableEq, Repr

structure Candidate where
  issue : IssueSummary
  reasons : List Text
  dependencies : List DependencyState
  deriving DecidableEq, Repr

def Candidate.eligible (c : Candidate) : Bool := c.reasons.length = 0

structure SelectionPolicy where
  requiredLabel : Text
  excludedLabels : List Text
  fallbackDependencies : Option (OrderedMap ℕ (List ℕ))
  priorityLabels : Option (List Text)
  skip : Option (List ℕ)

/-- `DEFAULT_PRIORITY_LABELS`. -/
def defaultPriorityLabels : List Text :=
  [lit "priority:p0", lit "priority:p1", lit "priority:p2", lit "priority:p3"]

/-- `DEFAULT_SELECTION_POLICY`. -/
def defaultSelectionPolicy : SelectionPolicy where
  requiredLabel := lit "agent:ready"
  excludedLabels := [lit "agent:in-progress", lit "agent:review", lit "agent:blocked"]
  fallbackDependencies := none
  priorityLabels := some defaultPriorityLabels
  skip := none

/-- Rank of an issue's priority label; unlabelled sorts last. -/
def priorityRank (labels : List Text) (priorityLabels : Option (List Text)) : ℕ :=
  (priorityLabels.getD defaultPriorityLabels).findIdx fun label => label ∈ labels

/-- `new Map(issues.map((issue) => [issue.number, issue]))`. -/
def byNumber (issues : List IssueSummary) : OrderedMap ℕ IssueSummary :=
  issues.foldl (fun m issue => m.set issue.number issue) []

/-- The dependencies an issue is held to: its body's when the body answers, the fallback's
otherwise. -/
def effectiveDependencies (policy : SelectionPolicy) (issue : IssueSummary) : List ℕ :=
  let declaration := parseDependencyDeclaration issue.body
  if declaration.declared then declaration.dependencies
  else (policy.fallbackDependencies.bind fun m => m.get? issue.number).getD []

/-- Without a map, the dependencies of an issue are those its body names. -/
theorem effectiveDependencies_of_no_fallback {policy : SelectionPolicy}
    (h : policy.fallbackDependencies = none) (issue : IssueSummary) :
    effectiveDependencies policy issue = (parseDependencyDeclaration issue.body).dependencies := by
  unfold effectiveDependencies
  dsimp only
  by_cases hdeclared : (parseDependencyDeclaration issue.body).declared = true
  · rw [if_pos hdeclared]
  · rw [if_neg hdeclared, dependencies_of_not_declared (by simpa using hdeclared), h]
    rfl

def dependencyState (issues : List IssueSummary) (number : ℕ) : DependencyState :=
  match (byNumber issues).get? number with
  | none => ⟨number, false, lit "#" ++ decimal number ++ lit " was not found"⟩
  | some dependency =>
      ⟨number, decide (dependency.state = .closed),
        lit "#" ++ decimal number ++ lit " is " ++ dependency.state.text⟩

def claimReasons (policy : SelectionPolicy) (labels : List Text) : List Text :=
  (if policy.requiredLabel ∈ labels then []
    else [lit "missing `" ++ policy.requiredLabel ++ lit "` label"]) ++
  (policy.excludedLabels.filter (· ∈ labels)).map fun excluded =>
    lit "carries `" ++ excluded ++ lit "`"

def skipReasons (policy : SelectionPolicy) (number : ℕ) : List Text :=
  if policy.skip.any fun skipped => decide (number ∈ skipped) then
    [lit "already blocked earlier in this run"]
  else []

def dependencyReasons (dependencies : List DependencyState) : List Text :=
  let unmet := dependencies.filter fun dependency => !dependency.satisfied
  if 0 < unmet.length then
    [lit "unmet dependencies: " ++
      join (lit ", ") (unmet.map fun dependency => lit "#" ++ decimal dependency.number)]
  else []

/-- The assessment of one issue. -/
def candidate (issues : List IssueSummary) (policy : SelectionPolicy) (issue : IssueSummary) :
    Candidate :=
  let dependencies := (effectiveDependencies policy issue).map (dependencyState issues)
  { issue
    reasons := claimReasons policy issue.labels ++ skipReasons policy issue.number ++
      dependencyReasons dependencies
    dependencies }

/-- The order of the candidates: priority first, then number. -/
def priorityKey (policy : SelectionPolicy) (issue : IssueSummary) : ℕ ×ₗ ℕ :=
  toLex (priorityRank issue.labels policy.priorityLabels, issue.number)

def isOpen (issue : IssueSummary) : Bool := issue.state = .opened

def evaluateCandidates (issues : List IssueSummary) (policy : SelectionPolicy) : List Candidate :=
  Priority.byKey (fun c => priorityKey policy c.issue)
    ((issues.filter isOpen).map (candidate issues policy))

structure SelectionResult where
  selected : Option IssueSummary
  candidates : List Candidate
  stopReason : Option Text
  deriving DecidableEq, Repr

def selectNextIssue (issues : List IssueSummary) (policy : SelectionPolicy) : SelectionResult :=
  let candidates := evaluateCandidates issues policy
  match (candidates.find? Candidate.eligible).map Candidate.issue with
  | some selected => ⟨some selected, candidates, none⟩
  | none =>
      let ready := candidates.filter fun c => policy.requiredLabel ∈ c.issue.labels
      let stopReason :=
        if candidates.length = 0 then lit "no open issues"
        else if ready.length = 0 then
          lit "no open issue carries the `" ++ policy.requiredLabel ++ lit "` label"
        else lit "every ready issue is blocked, already claimed, or has unmet dependencies"
      ⟨none, candidates, some stopReason⟩

/-! ### What makes an issue eligible -/

/-- The labels let the loop take the issue. -/
def Claimable (policy : SelectionPolicy) (issue : IssueSummary) : Prop :=
  policy.requiredLabel ∈ issue.labels ∧ ∀ excluded ∈ policy.excludedLabels, excluded ∉ issue.labels

instance (policy : SelectionPolicy) (issue : IssueSummary) : Decidable (Claimable policy issue) :=
  inferInstanceAs (Decidable (_ ∧ _))

/-- The issue is on the list, in the given state. -/
def InState (issues : List IssueSummary) (state : IssueState) (number : ℕ) : Prop :=
  ∃ issue ∈ issues, issue.number = number ∧ issue.state = state

instance (issues : List IssueSummary) (state : IssueState) (number : ℕ) :
    Decidable (InState issues state number) :=
  inferInstanceAs (Decidable (∃ issue ∈ issues, _))

/-- Two issues of the list are never one number. -/
def Distinct (issues : List IssueSummary) : Prop :=
  (issues.map IssueSummary.number).Nodup

instance (issues : List IssueSummary) : Decidable (Distinct issues) :=
  inferInstanceAs (Decidable (List.Nodup _))

theorem Distinct.eq {issues : List IssueSummary} (h : Distinct issues) {a b : IssueSummary}
    (ha : a ∈ issues) (hb : b ∈ issues) (hab : a.number = b.number) : a = b :=
  List.inj_on_of_nodup_map h ha hb hab

theorem get?_foldl_set (issues : List IssueSummary) (h : Distinct issues)
    (m : OrderedMap ℕ IssueSummary) (number : ℕ) :
    (issues.foldl (fun m issue => m.set issue.number issue) m).get? number =
      (issues.find? fun issue => issue.number = number).or (m.get? number) := by
  induction issues generalizing m with
  | nil => rfl
  | cons issue issues ih =>
    obtain ⟨hnew, hrest⟩ := List.nodup_cons.mp h
    rw [List.foldl_cons, ih hrest, OrderedMap.get?_set, List.find?_cons]
    by_cases heq : number = issue.number
    · subst heq
      have hnone : (issues.find? fun other => other.number = issue.number) = none := by
        rw [List.find?_eq_none]
        intro other hother hsame
        exact hnew (List.mem_map.mpr ⟨other, hother, by simpa using hsame⟩)
      simp [hnone]
    · have hne : ¬ issue.number = number := fun h => heq h.symm
      simp [heq, hne]

/-- Looking a number up on a list of distinct issues finds the issue of that number. -/
theorem byNumber_get? {issues : List IssueSummary} (h : Distinct issues) {number : ℕ}
    {issue : IssueSummary} :
    (byNumber issues).get? number = some issue ↔ issue ∈ issues ∧ issue.number = number := by
  unfold byNumber
  rw [get?_foldl_set issues h, OrderedMap.get?_nil, Option.or_none]
  constructor
  · intro hfind
    exact ⟨List.mem_of_find?_eq_some hfind, by simpa using List.find?_some hfind⟩
  · rintro ⟨hmem, rfl⟩
    cases hfind : issues.find? fun other => decide (other.number = issue.number) with
    | none => exact absurd (by simp) (List.find?_eq_none.mp hfind issue hmem)
    | some other =>
      have hsame : other.number = issue.number := by simpa using List.find?_some hfind
      rw [h.eq (List.mem_of_find?_eq_some hfind) hmem hsame]

/-- A dependency is satisfied when it is on the list and closed. -/
theorem dependencyState_satisfied {issues : List IssueSummary} (h : Distinct issues) (number : ℕ) :
    (dependencyState issues number).satisfied = true ↔ InState issues .closed number := by
  unfold dependencyState InState
  cases hget : (byNumber issues).get? number with
  | none =>
    show false = true ↔ _
    constructor
    · intro hfalse
      exact absurd hfalse (by decide)
    · rintro ⟨issue, hissue, hnumber, -⟩
      rw [(byNumber_get? h).mpr ⟨hissue, hnumber⟩] at hget
      exact absurd hget (by simp)
  | some dependency =>
    obtain ⟨hmem, hnumber⟩ := (byNumber_get? h).mp hget
    show decide (dependency.state = .closed) = true ↔ _
    rw [decide_eq_true_iff]
    constructor
    · intro hclosed
      exact ⟨dependency, hmem, hnumber, hclosed⟩
    · rintro ⟨issue, hissue, hissueNumber, hclosed⟩
      rw [h.eq hmem hissue (hnumber.trans hissueNumber.symm)]
      exact hclosed

theorem claimReasons_eq_nil (policy : SelectionPolicy) (issue : IssueSummary) :
    claimReasons policy issue.labels = [] ↔ Claimable policy issue := by
  unfold claimReasons Claimable
  rw [List.append_eq_nil_iff, List.map_eq_nil_iff, List.filter_eq_nil_iff]
  by_cases hready : policy.requiredLabel ∈ issue.labels <;> simp [hready]

theorem skipReasons_eq_nil (policy : SelectionPolicy) (number : ℕ) :
    skipReasons policy number = [] ↔ ∀ skipped ∈ policy.skip, number ∉ skipped := by
  unfold skipReasons
  cases policy.skip with
  | none => simp
  | some skipped => by_cases h : number ∈ skipped <;> simp [h]

theorem dependencyReasons_eq_nil (dependencies : List DependencyState) :
    dependencyReasons dependencies = [] ↔
      ∀ dependency ∈ dependencies, dependency.satisfied = true := by
  unfold dependencyReasons
  dsimp only
  split
  · rename_i h
    simp only [List.length_pos_iff, ne_eq, List.filter_eq_nil_iff, Bool.not_eq_true',
      Bool.not_eq_false] at h
    simp only [List.cons_ne_nil, false_iff]
    exact h
  · rename_i h
    simpa [List.length_pos_iff, List.filter_eq_nil_iff] using h

/-- **Eligibility.**  The labels allow it, the session has not given up on it, and every dependency
is on the list and closed. -/
theorem candidate_eligible {issues : List IssueSummary} (h : Distinct issues)
    (policy : SelectionPolicy) (issue : IssueSummary) :
    (candidate issues policy issue).eligible = true ↔
      Claimable policy issue ∧ (∀ skipped ∈ policy.skip, issue.number ∉ skipped) ∧
        ∀ number ∈ effectiveDependencies policy issue, InState issues .closed number := by
  have hdeps : (∀ dependency ∈ (effectiveDependencies policy issue).map (dependencyState issues),
      dependency.satisfied = true) ↔
      ∀ number ∈ effectiveDependencies policy issue, InState issues .closed number := by
    rw [List.forall_mem_map]
    exact forall₂_congr fun number _ => dependencyState_satisfied h number
  simp only [Candidate.eligible, candidate, decide_eq_true_eq, List.length_eq_zero_iff,
    List.append_eq_nil_iff, claimReasons_eq_nil, skipReasons_eq_nil, dependencyReasons_eq_nil,
    hdeps, and_assoc]

/-- The assessment of the list calls the issue of that number eligible. -/
def EligibleIn (issues : List IssueSummary) (policy : SelectionPolicy) (number : ℕ) : Prop :=
  ∃ c ∈ evaluateCandidates issues policy, c.issue.number = number ∧ c.eligible = true

instance (issues : List IssueSummary) (policy : SelectionPolicy) (number : ℕ) :
    Decidable (EligibleIn issues policy number) :=
  inferInstanceAs (Decidable (∃ c ∈ evaluateCandidates issues policy, _))

/-- Whether the issue is open and its assessment calls it eligible. -/
def selectable (issues : List IssueSummary) (policy : SelectionPolicy) (issue : IssueSummary) :
    Bool :=
  isOpen issue && (candidate issues policy issue).eligible

theorem eligibleIn_iff (issues : List IssueSummary) (policy : SelectionPolicy) (number : ℕ) :
    EligibleIn issues policy number ↔
      ∃ issue ∈ issues, issue.number = number ∧ selectable issues policy issue = true := by
  unfold EligibleIn evaluateCandidates selectable
  constructor
  · rintro ⟨c, hc, hnumber, heligible⟩
    rw [Priority.mem_byKey, List.mem_map] at hc
    obtain ⟨issue, hissue, rfl⟩ := hc
    obtain ⟨hmem, hopen⟩ := List.mem_filter.mp hissue
    exact ⟨issue, hmem, hnumber, by rw [hopen, heligible]; rfl⟩
  · rintro ⟨issue, hmem, hnumber, hpass⟩
    obtain ⟨hopen, heligible⟩ := Bool.and_eq_true_iff.mp hpass
    refine ⟨candidate issues policy issue, ?_, hnumber, heligible⟩
    rw [Priority.mem_byKey, List.mem_map]
    exact ⟨issue, List.mem_filter.mpr ⟨hmem, hopen⟩, rfl⟩

/-! ### The selected issue -/

theorem selectNextIssue_selected (issues : List IssueSummary) (policy : SelectionPolicy) :
    (selectNextIssue issues policy).selected =
      ((evaluateCandidates issues policy).find? Candidate.eligible).map Candidate.issue := by
  unfold selectNextIssue
  dsimp only
  split
  · rename_i selected hselected
    exact hselected.symm
  · rename_i hselected
    exact hselected.symm

/-- The selected issue is one of the list, its labels let the loop take it, and the session has not
given up on it. -/
theorem selectNextIssue_claimable {issues : List IssueSummary} {policy : SelectionPolicy}
    {issue : IssueSummary} (h : (selectNextIssue issues policy).selected = some issue) :
    issue ∈ issues ∧ Claimable policy issue ∧ ∀ skipped ∈ policy.skip, issue.number ∉ skipped := by
  rw [selectNextIssue_selected, Option.map_eq_some_iff] at h
  obtain ⟨c, hfind, rfl⟩ := h
  have hmem := List.mem_of_find?_eq_some hfind
  have heligible := List.find?_some hfind
  rw [evaluateCandidates, Priority.mem_byKey, List.mem_map] at hmem
  obtain ⟨issue, hissue, rfl⟩ := hmem
  simp only [Candidate.eligible, candidate, decide_eq_true_eq, List.length_eq_zero_iff,
    List.append_eq_nil_iff, claimReasons_eq_nil, skipReasons_eq_nil] at heligible
  exact ⟨(List.mem_filter.mp hissue).1, heligible.1.1, heligible.1.2⟩

/-- Nothing is selected exactly when nothing is selectable. -/
theorem selectNextIssue_none (issues : List IssueSummary) (policy : SelectionPolicy) :
    (selectNextIssue issues policy).selected = none ↔
      ∀ issue ∈ issues, ¬ selectable issues policy issue = true := by
  rw [selectNextIssue_selected, Option.map_eq_none_iff, evaluateCandidates,
    Priority.find_byKey_eq_none, List.forall_mem_map]
  unfold selectable
  constructor
  · intro h issue hmem hpass
    obtain ⟨hopen, heligible⟩ := Bool.and_eq_true_iff.mp hpass
    exact h issue (List.mem_filter.mpr ⟨hmem, hopen⟩) heligible
  · intro h issue hissue heligible
    obtain ⟨hmem, hopen⟩ := List.mem_filter.mp hissue
    exact h issue hmem (by rw [hopen, heligible]; rfl)

/-- **The selection.**  Of the selectable issues, the first by priority and number. -/
theorem selectNextIssue_leads {issues : List IssueSummary} (h : Distinct issues)
    (policy : SelectionPolicy) (issue : IssueSummary) :
    (selectNextIssue issues policy).selected = some issue ↔
      Priority.Leads (priorityKey policy) (fun i => selectable issues policy i = true) issues issue := by
  have hkey : ∀ c ∈ (issues.filter isOpen).map (candidate issues policy),
      ∀ d ∈ (issues.filter isOpen).map (candidate issues policy),
      priorityKey policy c.issue = priorityKey policy d.issue → c = d := by
    simp only [List.forall_mem_map]
    intro a ha b hb hab
    have hnumber : a.number = b.number := congrArg (fun k => (ofLex k).2) hab
    rw [h.eq (List.mem_of_mem_filter ha) (List.mem_of_mem_filter hb) hnumber]
  rw [selectNextIssue_selected, Option.map_eq_some_iff, evaluateCandidates]
  simp only [Priority.find_byKey_eq_some _ hkey]
  unfold Priority.Leads selectable
  simp only [List.forall_mem_map, List.mem_filter, Bool.and_eq_true]
  constructor
  · rintro ⟨c, ⟨hc, heligible, hleast⟩, rfl⟩
    obtain ⟨issue, hissue, rfl⟩ := List.mem_map.mp hc
    obtain ⟨hmem, hopen⟩ := List.mem_filter.mp hissue
    exact ⟨hmem, ⟨hopen, heligible⟩, fun b hb hpass => hleast b ⟨hb, hpass.1⟩ hpass.2⟩
  · rintro ⟨hmem, ⟨hopen, heligible⟩, hleast⟩
    refine ⟨candidate issues policy issue, ⟨?_, heligible, ?_⟩, rfl⟩
    · exact List.mem_map.mpr ⟨issue, List.mem_filter.mpr ⟨hmem, hopen⟩, rfl⟩
    · exact fun b hb heligible' => hleast b hb.1 ⟨hb.2, heligible'⟩

end Newsdeck.Loop

import Newsdeck.Runner.GitHub

/-!
# The runner and the workflow, choosing from one backlog

Both call `selectNextIssue`.  The workflow gives it every issue, open and closed, and the fallback
map; the runner gives it the open issues `gh issue list` returns, and no map.  A dependency the
runner cannot see counts as unmet, and a dependency only the map knows is not asked for.

* `runner_selectable`, `workflow_selectable` — what makes an issue selectable on either side;
* `selection_agrees_iff` — when the two sides agree.
-/

namespace Newsdeck.Runner

open Ecma Loop

/-- The `--limit` of the adapter's `gh issue list --state open`. -/
def issueListLimit : ℕ := 200

/-- What the runner hands to `selectNextIssue`. -/
def runnerPolicy (selectionPolicy : Option SelectionPolicy) (skip : Option (List ℕ)) :
    SelectionPolicy :=
  { selectionPolicy.getD defaultSelectionPolicy with skip }

section

variable [Host]

/-- The runner's selection from what the adapter's `issues([])` returned. -/
def runnerSelection (listed : List GhIssue) (selectionPolicy : Option SelectionPolicy)
    (skip : Option (List ℕ)) : SelectionResult :=
  selectNextIssue (listed.map toSummary) (runnerPolicy selectionPolicy skip)

/-- The runner selects an issue of the list that carries the required label. -/
theorem runnerSelection_listed {listed : List GhIssue} {selectionPolicy : Option SelectionPolicy}
    {skip : Option (List ℕ)} {issue : IssueSummary}
    (h : (runnerSelection listed selectionPolicy skip).selected = some issue) :
    ∃ i ∈ listed, issue = toSummary i ∧
      (selectionPolicy.getD defaultSelectionPolicy).requiredLabel ∈ i.labels := by
  obtain ⟨hmem, hclaimable, -⟩ := selectNextIssue_claimable h
  obtain ⟨i, hi, rfl⟩ := List.mem_map.mp hmem
  exact ⟨i, hi, rfl, hclaimable.1⟩

end

/-- What the workflow's `select-issue.ts` hands to `selectNextIssue`. -/
def workflowPolicy (fallbackDependencies : OrderedMap ℕ (List ℕ)) : SelectionPolicy :=
  { defaultSelectionPolicy with fallbackDependencies := some fallbackDependencies }

/-- The workflow's selection from the whole backlog. -/
def workflowSelection (issues : List IssueSummary) (fallbackDependencies : OrderedMap ℕ (List ℕ)) :
    SelectionResult :=
  selectNextIssue issues (workflowPolicy fallbackDependencies)

/-! ### What the two sides see -/

/-- The issues of a repository: no two share a number. -/
structure Backlog where
  issues : List IssueSummary
  distinct : Distinct issues

/-- What `gh` reports of an issue.  It prints an empty body where the API has `null`. -/
structure Shows [Host] (issue : IssueSummary) (listed : GhIssue) : Prop where
  number : listed.number = issue.number
  labels : listed.labels = issue.labels
  body : listed.body.getD [] = issue.body.getD []
  state : (toSummary listed).state = issue.state

/-- What `gh issue list --state open --limit limit` answers: open issues of the backlog, each once,
and all of them while the limit allows. -/
structure Lists [Host] (backlog : Backlog) (limit : ℕ) (listed : List GhIssue) : Prop where
  shown : ∀ i ∈ listed, ∃ issue ∈ backlog.issues, issue.state = .opened ∧ Shows issue i
  distinct : (listed.map GhIssue.number).Nodup
  length : listed.length = min limit (backlog.issues.filter isOpen).length

/-- The issue is on the runner's list. -/
def IsListed (listed : List GhIssue) (issue : IssueSummary) : Prop :=
  ∃ i ∈ listed, i.number = issue.number

instance (listed : List GhIssue) (issue : IssueSummary) : Decidable (IsListed listed issue) :=
  inferInstanceAs (Decidable (∃ i ∈ listed, _))

/-- An open issue whose labels let the loop take it. -/
def Ready (issue : IssueSummary) : Prop :=
  issue.state = .opened ∧ Claimable defaultSelectionPolicy issue

instance (issue : IssueSummary) : Decidable (Ready issue) := inferInstanceAs (Decidable (_ ∧ _))

/-- The body of the issue names a dependency. -/
def NamesDependency (issue : IssueSummary) : Prop :=
  (parseDependencyDeclaration issue.body).dependencies ≠ []

instance (issue : IssueSummary) : Decidable (NamesDependency issue) :=
  inferInstanceAs (Decidable (_ ≠ _))

/-- The dependencies the whole loop holds an issue to. -/
def dependenciesOf (fallback : OrderedMap ℕ (List ℕ)) (issue : IssueSummary) : List ℕ :=
  effectiveDependencies (workflowPolicy fallback) issue

/-- Every dependency of the issue is closed. -/
def Released (backlog : Backlog) (fallback : OrderedMap ℕ (List ℕ)) (issue : IssueSummary) : Prop :=
  ∀ number ∈ dependenciesOf fallback issue, InState backlog.issues .closed number

instance (backlog : Backlog) (fallback : OrderedMap ℕ (List ℕ)) (issue : IssueSummary) :
    Decidable (Released backlog fallback issue) :=
  inferInstanceAs (Decidable (∀ number ∈ dependenciesOf fallback issue, _))

/-- Some dependency of the issue is open. -/
def Waits (backlog : Backlog) (fallback : OrderedMap ℕ (List ℕ)) (issue : IssueSummary) : Prop :=
  ∃ number ∈ dependenciesOf fallback issue, InState backlog.issues .opened number

instance (backlog : Backlog) (fallback : OrderedMap ℕ (List ℕ)) (issue : IssueSummary) :
    Decidable (Waits backlog fallback issue) :=
  inferInstanceAs (Decidable (∃ number ∈ dependenciesOf fallback issue, _))

/-! ### What lets an issue through -/

section Sides

variable [Host] {backlog : Backlog} {fallback : OrderedMap ℕ (List ℕ)} {listed : List GhIssue}

omit [Host] in
theorem workflow_selectable {issue : IssueSummary} :
    selectable backlog.issues (workflowPolicy fallback) issue = true ↔
      Ready issue ∧ Released backlog fallback issue := by
  unfold selectable Ready Released
  rw [Bool.and_eq_true, candidate_eligible backlog.distinct]
  simp [isOpen, workflowPolicy, defaultSelectionPolicy, Claimable, dependenciesOf, and_assoc]

theorem distinct_summaries (h : (listed.map GhIssue.number).Nodup) :
    Distinct (listed.map toSummary) := by
  unfold Distinct
  rw [List.map_map]
  exact h

/-- Nothing the runner sees is closed. -/
theorem Lists.not_closed {limit : ℕ} (h : Lists backlog limit listed) (number : ℕ) :
    ¬ InState (listed.map toSummary) .closed number := by
  rintro ⟨summary, hsummary, -, hclosed⟩
  obtain ⟨i, hi, rfl⟩ := List.mem_map.mp hsummary
  obtain ⟨issue, -, hopen, hshows⟩ := h.shown i hi
  rw [hshows.state, hopen] at hclosed
  exact absurd hclosed (by decide)

/-- **The runner's side.**  A listed issue is selectable when its body names no dependency. -/
theorem runner_selectable {limit : ℕ} (h : Lists backlog limit listed) {i : GhIssue} {issue : IssueSummary}
    (hshows : Shows issue i) :
    selectable (listed.map toSummary) (runnerPolicy none none) (toSummary i) = true ↔
      Ready issue ∧ ¬ NamesDependency issue := by
  have hbody : parseDependencyDeclaration (toSummary i).body =
      parseDependencyDeclaration issue.body := by
    rw [parseDependencyDeclaration_getD issue.body, ← hshows.body]
    exact parseDependencyDeclaration_getD i.body
  have hdeps : effectiveDependencies (runnerPolicy none none) (toSummary i) =
      (parseDependencyDeclaration issue.body).dependencies := by
    rw [effectiveDependencies_of_no_fallback rfl, hbody]
  have hmet : (∀ number ∈ effectiveDependencies (runnerPolicy none none) (toSummary i),
      InState (listed.map toSummary) .closed number) ↔ ¬ NamesDependency issue := by
    unfold NamesDependency
    rw [hdeps, ne_eq, not_not, List.eq_nil_iff_forall_not_mem]
    exact forall₂_congr fun number _ => iff_false_intro (h.not_closed number)
  have hclaim : Claimable (runnerPolicy none none) (toSummary i) ↔
      Claimable defaultSelectionPolicy issue := by
    show Claimable defaultSelectionPolicy (toSummary i) ↔ _
    unfold Claimable
    rw [show (toSummary i).labels = issue.labels from hshows.labels]
  unfold selectable Ready
  rw [Bool.and_eq_true, candidate_eligible (distinct_summaries h.distinct), hclaim, hmet]
  simp [isOpen, hshows.state, runnerPolicy, defaultSelectionPolicy, and_assoc]

/-- The runner takes an issue of the backlog when it is listed and names no dependency. -/
def RunnerFree (listed : List GhIssue) (issue : IssueSummary) : Prop :=
  IsListed listed issue ∧ Ready issue ∧ ¬ NamesDependency issue

instance (listed : List GhIssue) (issue : IssueSummary) : Decidable (RunnerFree listed issue) :=
  inferInstanceAs (Decidable (_ ∧ _ ∧ _))

theorem runner_eligible_iff {limit : ℕ} (h : Lists backlog limit listed) {issue : IssueSummary}
    (hissue : issue ∈ backlog.issues) :
    EligibleIn (listed.map toSummary) (runnerPolicy none none) issue.number ↔
      RunnerFree listed issue := by
  rw [eligibleIn_iff]
  constructor
  · rintro ⟨summary, hsummary, hnumber, hpass⟩
    obtain ⟨i, hi, rfl⟩ := List.mem_map.mp hsummary
    obtain ⟨other, hother, -, hshows⟩ := h.shown i hi
    have hsame : other = issue :=
      backlog.distinct.eq hother hissue (hshows.number.symm.trans hnumber)
    rw [hsame] at hshows
    exact ⟨⟨i, hi, hnumber⟩, (runner_selectable h hshows).mp hpass⟩
  · rintro ⟨⟨i, hi, hnumber⟩, hfree⟩
    obtain ⟨other, hother, -, hshows⟩ := h.shown i hi
    have hsame : other = issue :=
      backlog.distinct.eq hother hissue (hshows.number.symm.trans hnumber)
    rw [hsame] at hshows
    exact ⟨toSummary i, List.mem_map_of_mem hi, hnumber, (runner_selectable h hshows).mpr hfree⟩

omit [Host] in
theorem workflow_eligible_iff {issue : IssueSummary} (hissue : issue ∈ backlog.issues) :
    EligibleIn backlog.issues (workflowPolicy fallback) issue.number ↔
      Ready issue ∧ Released backlog fallback issue := by
  rw [eligibleIn_iff]
  constructor
  · rintro ⟨other, hother, hnumber, hpass⟩
    rw [backlog.distinct.eq hother hissue hnumber] at hpass
    exact workflow_selectable.mp hpass
  · intro hfree
    exact ⟨issue, hissue, rfl, workflow_selectable.mpr hfree⟩

/-! ### The two selections -/

/-- The workflow takes a ready issue whose dependencies are all closed. -/
def WorkflowFree (backlog : Backlog) (fallback : OrderedMap ℕ (List ℕ)) (issue : IssueSummary) :
    Prop :=
  Ready issue ∧ Released backlog fallback issue

/-- The order of the issues is the same on both sides. -/
theorem Shows.priorityKey {issue : IssueSummary} {i : GhIssue} (h : Shows issue i)
    (policy : SelectionPolicy) : priorityKey policy (toSummary i) = priorityKey policy issue := by
  unfold Loop.priorityKey
  rw [show (toSummary i).labels = issue.labels from h.labels,
    show (toSummary i).number = issue.number from h.number]

theorem runnerSelection_number {limit : ℕ} (h : Lists backlog limit listed) (number : ℕ) :
    (runnerSelection listed none none).selected.map IssueSummary.number = some number ↔
      ∃ issue, Priority.Leads (priorityKey defaultSelectionPolicy) (RunnerFree listed)
        backlog.issues issue ∧ issue.number = number := by
  rw [Option.map_eq_some_iff]
  unfold runnerSelection
  simp only [selectNextIssue_leads (distinct_summaries h.distinct)]
  constructor
  · rintro ⟨summary, ⟨hmem, hpass, hleast⟩, rfl⟩
    obtain ⟨i, hi, rfl⟩ := List.mem_map.mp hmem
    obtain ⟨issue, hissue, -, hshows⟩ := h.shown i hi
    refine ⟨issue, ⟨hissue, ⟨⟨i, hi, hshows.number⟩, (runner_selectable h hshows).mp hpass⟩, ?_⟩,
      hshows.number.symm⟩
    rintro other hother ⟨⟨j, hj, hnumber⟩, hfree⟩
    obtain ⟨shown, hshown, -, hshows'⟩ := h.shown j hj
    rw [backlog.distinct.eq hshown hother (hshows'.number.symm.trans hnumber)] at hshows'
    have hle := hleast (toSummary j) (List.mem_map_of_mem hj) ((runner_selectable h hshows').mpr hfree)
    have hle' : priorityKey defaultSelectionPolicy _ ≤ priorityKey defaultSelectionPolicy _ := hle
    rwa [hshows.priorityKey, hshows'.priorityKey] at hle'
  · rintro ⟨issue, ⟨hissue, ⟨⟨i, hi, hnumber⟩, hfree⟩, hleast⟩, rfl⟩
    obtain ⟨shown, hshown, -, hshows⟩ := h.shown i hi
    rw [backlog.distinct.eq hshown hissue (hshows.number.symm.trans hnumber)] at hshows
    refine ⟨toSummary i, ⟨List.mem_map_of_mem hi, (runner_selectable h hshows).mpr hfree, ?_⟩, hnumber⟩
    intro summary hsummary hpass
    obtain ⟨j, hj, rfl⟩ := List.mem_map.mp hsummary
    obtain ⟨other, hother, -, hshows'⟩ := h.shown j hj
    have hle := hleast other hother
      ⟨⟨j, hj, hshows'.number⟩, (runner_selectable h hshows').mp hpass⟩
    show priorityKey defaultSelectionPolicy _ ≤ priorityKey defaultSelectionPolicy _
    rwa [hshows.priorityKey, hshows'.priorityKey]

omit [Host] in
theorem workflowSelection_number (number : ℕ) :
    (workflowSelection backlog.issues fallback).selected.map IssueSummary.number = some number ↔
      ∃ issue, Priority.Leads (priorityKey defaultSelectionPolicy) (WorkflowFree backlog fallback)
        backlog.issues issue ∧ issue.number = number := by
  rw [Option.map_eq_some_iff]
  unfold workflowSelection
  simp only [selectNextIssue_leads backlog.distinct, Priority.Leads, workflow_selectable, WorkflowFree]
  rfl

/-- The two selections are one, and they let through what they should. -/
structure Agrees (backlog : Backlog) (fallback : OrderedMap ℕ (List ℕ)) (listed : List GhIssue) :
    Prop where
  selected : (runnerSelection listed none none).selected.map IssueSummary.number =
    (workflowSelection backlog.issues fallback).selected.map IssueSummary.number
  released : ∀ issue ∈ backlog.issues, Ready issue → Released backlog fallback issue →
    EligibleIn (listed.map toSummary) (runnerPolicy none none) issue.number ∧
      EligibleIn backlog.issues (workflowPolicy fallback) issue.number
  waiting : ∀ issue ∈ backlog.issues, Waits backlog fallback issue →
    ¬ EligibleIn (listed.map toSummary) (runnerPolicy none none) issue.number ∧
      ¬ EligibleIn backlog.issues (workflowPolicy fallback) issue.number

/-- What the runner does not see makes no difference: a released issue is on its list and names no
dependency at all, no issue it takes waits for one the map names, and the first of these has no
dependency outside the backlog. -/
structure SeesEnough (backlog : Backlog) (fallback : OrderedMap ℕ (List ℕ))
    (listed : List GhIssue) : Prop where
  released : ∀ issue ∈ backlog.issues, Ready issue → Released backlog fallback issue →
    IsListed listed issue ∧ ¬ NamesDependency issue
  waiting : ∀ issue ∈ backlog.issues, RunnerFree listed issue → ¬ Waits backlog fallback issue
  present : ∀ issue, Priority.Leads (priorityKey defaultSelectionPolicy) (RunnerFree listed)
    backlog.issues issue → ∀ number ∈ dependenciesOf fallback issue,
      ∃ dependency ∈ backlog.issues, dependency.number = number

omit [Host] in
theorem WorkflowFree.not_waits {issue : IssueSummary} (h : WorkflowFree backlog fallback issue) :
    ¬ Waits backlog fallback issue := by
  rintro ⟨number, hnumber, dependency, hmem, heq, hopen⟩
  obtain ⟨other, hother, heq', hclosed⟩ := h.2 number hnumber
  rw [backlog.distinct.eq hother hmem (heq'.trans heq.symm), hopen] at hclosed
  exact absurd hclosed (by decide)

omit [Host] in
/-- Under the condition, the first issue the runner takes is free for the workflow. -/
theorem SeesEnough.leader_free (h : SeesEnough backlog fallback listed) {issue : IssueSummary}
    (hleads : Priority.Leads (priorityKey defaultSelectionPolicy) (RunnerFree listed)
      backlog.issues issue) : WorkflowFree backlog fallback issue := by
  refine ⟨hleads.2.1.2.1, fun number hnumber => ?_⟩
  obtain ⟨dependency, hmem, heq⟩ := h.present issue hleads number hnumber
  refine ⟨dependency, hmem, heq, ?_⟩
  cases hstate : dependency.state with
  | closed => rfl
  | opened =>
    exact absurd ⟨number, hnumber, dependency, hmem, heq, hstate⟩
      (h.waiting issue hleads.1 hleads.2.1)

omit [Host] in
theorem leaders_eq {p : IssueSummary → Prop} {a b : IssueSummary}
    (ha : Priority.Leads (priorityKey defaultSelectionPolicy) p backlog.issues a)
    (hb : Priority.Leads (priorityKey defaultSelectionPolicy) p backlog.issues b) : a = b := by
  have hkey := le_antisymm (ha.2.2 b hb.1 hb.2.1) (hb.2.2 a ha.1 ha.2.1)
  exact backlog.distinct.eq ha.1 hb.1 (congrArg (fun k => (ofLex k).2) hkey)

/-- **When the runner and the workflow agree.** -/
theorem selection_agrees_iff (backlog : Backlog) (fallback : OrderedMap ℕ (List ℕ))
    (listed : List GhIssue) (hlists : Lists backlog issueListLimit listed) :
    Agrees backlog fallback listed ↔ SeesEnough backlog fallback listed := by
  constructor
  · intro h
    refine ⟨?_, ?_, ?_⟩
    · intro issue hissue hready hreleased
      have hfree := (runner_eligible_iff hlists hissue).mp
        (h.released issue hissue hready hreleased).1
      exact ⟨hfree.1, hfree.2.2⟩
    · intro issue hissue hfree hwaits
      exact (h.waiting issue hissue hwaits).1 ((runner_eligible_iff hlists hissue).mpr hfree)
    · intro issue hleads number hnumber
      have hrunner := (runnerSelection_number hlists issue.number).mpr ⟨issue, hleads, rfl⟩
      rw [h.selected, workflowSelection_number] at hrunner
      obtain ⟨other, hother, hsame⟩ := hrunner
      rw [backlog.distinct.eq hother.1 hleads.1 hsame] at hother
      obtain ⟨dependency, hmem, heq, -⟩ := hother.2.1.2 number hnumber
      exact ⟨dependency, hmem, heq⟩
  · intro h
    have hsub : ∀ issue ∈ backlog.issues, WorkflowFree backlog fallback issue →
        RunnerFree listed issue := by
      intro issue hissue hfree
      obtain ⟨hlisted, hnames⟩ := h.released issue hissue hfree.1 hfree.2
      exact ⟨hlisted, hfree.1, hnames⟩
    refine ⟨?_, ?_, ?_⟩
    · apply Option.ext
      intro number
      rw [runnerSelection_number hlists, workflowSelection_number]
      constructor
      · rintro ⟨issue, hleads, rfl⟩
        exact ⟨issue, hleads.narrow _ hsub (h.leader_free hleads), rfl⟩
      · rintro ⟨issue, hleads, rfl⟩
        have hfree := hsub issue hleads.1 hleads.2.1
        obtain ⟨first, hfirst⟩ := Priority.exists_leads (priorityKey defaultSelectionPolicy)
          (p := fun i => decide (RunnerFree listed i)) ⟨issue, hleads.1, by simpa using hfree⟩
        simp only [decide_eq_true_eq] at hfirst
        have hsame := leaders_eq hleads (hfirst.narrow _ hsub (h.leader_free hfirst))
        exact ⟨first, hfirst, by rw [hsame]⟩
    · intro issue hissue hready hreleased
      exact ⟨(runner_eligible_iff hlists hissue).mpr (hsub issue hissue ⟨hready, hreleased⟩),
        (workflow_eligible_iff hissue).mpr ⟨hready, hreleased⟩⟩
    · intro issue hissue hwaits
      exact ⟨fun heligible => h.waiting issue hissue ((runner_eligible_iff hlists hissue).mp
          heligible) hwaits,
        fun heligible => WorkflowFree.not_waits ((workflow_eligible_iff hissue).mp heligible) hwaits⟩

end Sides

/-! ### A closed dependency -/

/-- Issue 1 is closed; issue 2 is ready and has the given body. -/
def sampleBacklog (body : Text) : Backlog where
  issues := [⟨1, lit "First", .closed, [], none⟩,
    ⟨2, lit "Second", .opened, [lit "agent:ready"], some body⟩]
  distinct := by
    show [1, 2].Nodup
    decide

def sampleListing (body : Text) : List GhIssue :=
  [⟨2, lit "Second", some body, lit "OPEN", [lit "agent:ready"]⟩]

theorem sampleListing_lists (body : Text) :
    @Lists asciiHost (sampleBacklog body) issueListLimit (sampleListing body) := by
  let _ : Host := asciiHost
  refine ⟨?_, List.nodup_singleton 2, by rfl⟩
  intro i hi
  rw [List.mem_singleton.mp hi]
  refine ⟨⟨2, lit "Second", .opened, [lit "agent:ready"], some body⟩, ?_, rfl,
    ⟨rfl, rfl, rfl, ?_⟩⟩
  · exact List.mem_cons_of_mem _ (List.mem_singleton.mpr rfl)
  · show (if Host.toLowerCase (lit "OPEN") = lit "closed" then IssueState.closed else .opened) =
      .opened
    decide

/-- An issue that says it depends on nothing is selected by both. -/
theorem selection_agrees_sample :
    @Agrees asciiHost (sampleBacklog (lit "Depends on: none")) []
      (sampleListing (lit "Depends on: none")) := by
  let _ : Host := asciiHost
  refine (selection_agrees_iff _ _ _ (sampleListing_lists _)).mpr ⟨?_, ?_, ?_⟩
  · decide +kernel
  · decide +kernel
  · intro issue hleads
    have hnone : ∀ issue ∈ (sampleBacklog (lit "Depends on: none")).issues,
        dependenciesOf [] issue = [] := by decide +kernel
    rw [hnone issue hleads.1]
    simp

/-- The dependency of issue 2 is closed, the workflow selects it, and the runner never does. -/
theorem closed_dependency_unseen :
    @Lists asciiHost (sampleBacklog (lit "Depends on: #1")) issueListLimit
      (sampleListing (lit "Depends on: #1")) ∧
    ¬ @Agrees asciiHost (sampleBacklog (lit "Depends on: #1")) []
      (sampleListing (lit "Depends on: #1")) := by
  let _ : Host := asciiHost
  refine ⟨sampleListing_lists _, fun h => ?_⟩
  have hreleased : ∀ issue ∈ (sampleBacklog (lit "Depends on: #1")).issues, Ready issue →
      ∀ number ∈ dependenciesOf [] issue,
        InState (sampleBacklog (lit "Depends on: #1")).issues .closed number := by decide +kernel
  have hready : Ready ⟨2, lit "Second", .opened, [lit "agent:ready"],
      some (lit "Depends on: #1")⟩ := by decide +kernel
  have hmem : (⟨2, lit "Second", .opened, [lit "agent:ready"], some (lit "Depends on: #1")⟩ :
      IssueSummary) ∈ (sampleBacklog (lit "Depends on: #1")).issues := by decide +kernel
  have heligible := (h.released _ hmem hready (hreleased _ hmem hready)).1
  have hnot : ¬ EligibleIn ((sampleListing (lit "Depends on: #1")).map toSummary)
      (runnerPolicy none none) 2 := by decide +kernel
  exact hnot heligible

end Newsdeck.Runner

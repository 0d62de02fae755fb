import Newsdeck.Library.Saturation
import Newsdeck.Loop.Choice

/-!
# Working a backlog to its end

The loop asks for the next issue again and again.  The one it is given is closed in the end, or
given up and labelled so that it is not chosen again; meanwhile a person may close any issue by
hand.

* `Worked` — what happens to the backlog between one question and the next;
* `worked_mirrors` — a backlog that is worked on is a run of `Saturation`;
* `worked_ends` — what is closed when nothing is left to choose;
* `worked_trapped` — what is never chosen.
-/

namespace Newsdeck.Loop

open Ecma Effects Saturation

/-- The issue of that number is closed. -/
def close (number : ℕ) (issues : List IssueSummary) : List IssueSummary :=
  issues.map fun issue => if issue.number = number then { issue with state := .closed } else issue

/-- The issue of that number gets a label. -/
def giveUp (label : Text) (number : ℕ) (issues : List IssueSummary) : List IssueSummary :=
  issues.map fun issue =>
    if issue.number = number then { issue with labels := issue.labels ++ [label] } else issue

/-- What happens to the backlog: the issue that is selected is finished, or it is given up, or
someone closes an issue of the list. -/
inductive Worked (policy : SelectionPolicy) (label : Text) :
    List IssueSummary → Move ℕ → List IssueSummary → Prop
  | take {issues : List IssueSummary} {issue : IssueSummary}
      (h : (selectNextIssue issues policy).selected = some issue) :
      Worked policy label issues (.take issue.number) (close issue.number issues)
  | drop {issues : List IssueSummary} {issue : IssueSummary}
      (h : (selectNextIssue issues policy).selected = some issue) :
      Worked policy label issues (.drop issue.number) (giveUp label issue.number issues)
  | hand {issues : List IssueSummary} {issue : IssueSummary} (h : issue ∈ issues) :
      Worked policy label issues (.hand issue.number) (close issue.number issues)

/-- The labels of the issue allow it to be taken, and it is not skipped. -/
def Takeable (issues : List IssueSummary) (policy : SelectionPolicy) (number : ℕ) : Prop :=
  ∃ issue ∈ issues, issue.number = number ∧ Claimable policy issue ∧
    ∀ skipped ∈ policy.skip, number ∉ skipped

/-- The issue of that number depends on the other number. -/
def Waits (issues : List IssueSummary) (policy : SelectionPolicy) (number other : ℕ) : Prop :=
  ∃ issue ∈ issues, issue.number = number ∧ DependsOn policy issue other

/-- The numbers of the closed issues. -/
def closedNumbers (issues : List IssueSummary) : Set ℕ := {number | InState issues .closed number}

/-- Closed from the start or by hand, or an issue that may be taken, was not given up, and depends
on nothing but such issues. -/
def Workable (issues : List IssueSummary) (policy : SelectionPolicy) (moves : List (Move ℕ))
    (number : ℕ) :
    Prop :=
  Reached (fun number => Takeable issues policy number ∧ number ∉ dropping moves)
    (Waits issues policy)
    (closedNumbers issues ∪ handing moves) number

/-! ### What has become of an issue -/

/-- The issue as it was, and as it is now. -/
structure Stood (label : Text) (s : State ℕ) (before after : IssueSummary) : Prop where
  number : after.number = before.number
  body : after.body = before.body
  state : after.state = .closed ↔ before.number ∈ s.taken
  labels : before.number ∉ s.dropped → after.labels = before.labels
  dropped : before.number ∈ s.dropped → label ∈ after.labels

/-- The backlog as it was, and as it is now. -/
structure Mirrors (label : Text) (issues current : List IssueSummary) (s : State ℕ) : Prop where
  pairs : List.Forall₂ (Stood label s) issues current
  listed : ∀ number ∈ s.taken, ∃ issue ∈ issues, issue.number = number

section Mirrors

variable {label : Text} {issues current current' : List IssueSummary} {policy : SelectionPolicy}
    {s : State ℕ}
  {before after : IssueSummary} {number : ℕ}

theorem mirrors_start (issues : List IssueSummary) (h : Distinct issues) :
    Mirrors label issues issues ⟨closedNumbers issues, ∅⟩ := by
  refine ⟨List.forall₂_same.mpr fun issue hissue => ?_, ?_⟩
  · refine ⟨rfl, rfl, ?_, fun _ => rfl, fun hdropped => hdropped.elim⟩
    constructor
    · intro hclosed
      exact ⟨issue, hissue, rfl, hclosed⟩
    · rintro ⟨other, hother, hnumber, hclosed⟩
      rw [← h.eq hother hissue hnumber]
      exact hclosed
  · rintro number ⟨issue, hissue, hnumber, -⟩
    exact ⟨issue, hissue, hnumber⟩

theorem Mirrors.after_of_mem (h : Mirrors label issues current s) (hbefore : before ∈ issues) :
    ∃ after ∈ current, Stood label s before after := by
  obtain ⟨i, hi, rfl⟩ := List.mem_iff_getElem.mp hbefore
  have hlength := h.pairs.length_eq
  exact ⟨current[i], List.getElem_mem _, h.pairs.get hi (hlength ▸ hi)⟩

theorem Mirrors.before_of_mem (h : Mirrors label issues current s) (hafter : after ∈ current) :
    ∃ before ∈ issues, Stood label s before after := by
  obtain ⟨i, hi, rfl⟩ := List.mem_iff_getElem.mp hafter
  have hlength := h.pairs.length_eq
  exact ⟨issues[i], List.getElem_mem _, h.pairs.get (hlength ▸ hi) hi⟩

theorem Mirrors.distinct (h : Mirrors label issues current s) (hdistinct : Distinct issues) :
    Distinct current := by
  have hnumbers : current.map IssueSummary.number = issues.map IssueSummary.number := by
    have hpairs := h.pairs
    clear h
    induction hpairs with
    | nil => rfl
    | cons hfirst _ ih =>
      rw [List.map_cons, List.map_cons, ih (List.nodup_cons.mp hdistinct).2, hfirst.number]
  unfold Distinct
  rw [hnumbers]
  exact hdistinct

/-- What is closed is what was taken. -/
theorem Mirrors.closed (h : Mirrors label issues current s) : InState current .closed number ↔
    number ∈ s.taken := by
  constructor
  · rintro ⟨after, hafter, rfl, hclosed⟩
    obtain ⟨before, -, hstood⟩ := h.before_of_mem hafter
    rw [hstood.number]
    exact hstood.state.mp hclosed
  · intro htaken
    obtain ⟨before, hbefore, rfl⟩ := h.listed number htaken
    obtain ⟨after, hafter, hstood⟩ := h.after_of_mem hbefore
    exact ⟨after, hafter, hstood.number, hstood.state.mpr htaken⟩

theorem Stood.dependsOn (h : Stood label s before after) :
    DependsOn policy after number ↔ DependsOn policy before number := by
  unfold DependsOn
  rw [h.body, h.number]

/-- The labels allow the issue now if they did and it was not given up. -/
theorem Stood.claimable (h : Stood label s before after) (hlabel : label ∈ policy.excludedLabels) :
    Claimable policy after ↔ Claimable policy before ∧ before.number ∉ s.dropped := by
  by_cases hdropped : before.number ∈ s.dropped
  · refine iff_of_false ?_ fun hboth => hboth.2 hdropped
    intro hclaimable
    exact hclaimable.2 label hlabel (h.dropped hdropped)
  · unfold Claimable
    rw [h.labels hdropped]
    exact (and_iff_left hdropped).symm

/-- **An issue is ready now exactly when its number is.** -/
theorem Mirrors.ready_iff (h : Mirrors label issues current s) (hdistinct : Distinct issues)
    (hlabel : label ∈ policy.excludedLabels) (hbefore : before ∈ issues)
    (hstood : Stood label s before after) :
    Ready current policy after ↔
      Saturation.Ready (Takeable issues policy) (Waits issues policy) s before.number := by
  have hsame : ∀ other ∈ issues, other.number = before.number → other = before :=
    fun other hother hnumber => hdistinct.eq hother hbefore hnumber
  have hopened : after.state = .opened ↔ before.number ∉ s.taken := by
    rw [← hstood.state]
    cases after.state <;> simp
  constructor
  · intro hready
    have hclaimable := (hstood.claimable hlabel).mp ⟨hready.required, hready.excluded⟩
    refine ⟨⟨before, hbefore, rfl, hclaimable.1, ?_⟩, hopened.mp hready.opened, hclaimable.2, ?_⟩
    · rw [← hstood.number]
      exact hready.skipped
    · rintro number ⟨other, hother, hnumber, hdepends⟩
      rw [hsame other hother hnumber] at hdepends
      exact h.closed.mp (hready.closed number (hstood.dependsOn.mpr hdepends))
  · rintro ⟨⟨other, hother, hnumber, hclaimable, hskipped⟩, hleft, hkept, hwaited⟩
    rw [hsame other hother hnumber] at hclaimable
    obtain ⟨hrequired, hexcluded⟩ := (hstood.claimable hlabel).mpr ⟨hclaimable, hkept⟩
    refine ⟨hopened.mpr hleft, hrequired, hexcluded, ?_, fun number hdepends => ?_⟩
    · rw [hstood.number]
      exact hskipped
    · exact h.closed.mpr (hwaited number ⟨before, hbefore, rfl, hstood.dependsOn.mp hdepends⟩)

/-- The selected issue is ready. -/
theorem Mirrors.ready_of_selected (h : Mirrors label issues current s) (hdistinct : Distinct issues)
    (hlabel : label ∈ policy.excludedLabels)
    (hselected : (selectNextIssue current policy).selected = some after) :
    Saturation.Ready (Takeable issues policy) (Waits issues policy) s after.number := by
  have hcurrent := h.distinct hdistinct
  obtain ⟨hmem, hready, -⟩ := (selectNextIssue_leads hcurrent policy after).mp hselected
  obtain ⟨before, hbefore, hstood⟩ := h.before_of_mem hmem
  rw [hstood.number]
  exact (h.ready_iff hdistinct hlabel hbefore hstood).mp ((selectable_iff hcurrent after).mp hready)

/-! ### One move -/

theorem Mirrors.close (h : Mirrors label issues current s)
    (hlisted : ∃ issue ∈ issues, issue.number = number) :
    Mirrors label issues (close number current) ⟨insert number s.taken, s.dropped⟩ := by
  refine ⟨List.forall₂_map_right_iff.mpr (h.pairs.imp fun before after hstood => ?_), ?_⟩
  · split
    · rename_i heq
      refine ⟨hstood.number, hstood.body, iff_of_true rfl ?_, hstood.labels, hstood.dropped⟩
      rw [← hstood.number, heq]
      exact Set.mem_insert _ _
    · rename_i hne
      refine ⟨hstood.number, hstood.body, ?_, hstood.labels, hstood.dropped⟩
      rw [hstood.state, Set.mem_insert_iff, ← hstood.number]
      simp [hne]
  · rintro other (rfl | hother)
    · exact hlisted
    · exact h.listed other hother

theorem Mirrors.giveUp (h : Mirrors label issues current s) :
    Mirrors label issues (giveUp label number current) ⟨s.taken, insert number s.dropped⟩ := by
  refine ⟨List.forall₂_map_right_iff.mpr (h.pairs.imp fun before after hstood => ?_), h.listed⟩
  split
  · rename_i heq
    have hnumber : before.number = number := hstood.number ▸ heq
    refine ⟨hstood.number, hstood.body, hstood.state, fun hkept => ?_, fun _ => by simp⟩
    exact absurd (.inl hnumber) hkept
  · rename_i hne
    have hnumber : ¬ before.number = number := hstood.number ▸ hne
    refine ⟨hstood.number, hstood.body, hstood.state, fun hkept => ?_, fun hdropped => ?_⟩
    · exact hstood.labels fun hdropped => hkept (.inr hdropped)
    · exact hstood.dropped (hdropped.resolve_left hnumber)

/-- **One move of the backlog is one step of the run.** -/
theorem Mirrors.step (h : Mirrors label issues current s) (hdistinct : Distinct issues)
    (hlabel : label ∈ policy.excludedLabels) {move : Move ℕ}
    (hmove : Worked policy label current move current') :
    ∃ s', Step (Takeable issues policy) (Waits issues policy) s move s' ∧
      Mirrors label issues current' s' := by
  cases hmove with
  | take hselected =>
    have hready := h.ready_of_selected hdistinct hlabel hselected
    obtain ⟨issue, hissue, hnumber, -⟩ := hready.may
    exact ⟨_, .take hready, h.close ⟨issue, hissue, hnumber⟩⟩
  | drop hselected => exact ⟨_, .drop (h.ready_of_selected hdistinct hlabel hselected), h.giveUp⟩
  | hand hmem =>
    obtain ⟨before, hbefore, hstood⟩ := h.before_of_mem hmem
    exact ⟨_, .hand _, h.close ⟨before, hbefore, hstood.number.symm⟩⟩

/-- A backlog that is worked on is a run. -/
theorem worked_mirrors (hdistinct : Distinct issues) (hlabel : label ∈ policy.excludedLabels)
    {moves : List (Move ℕ)} (h : Path (Worked policy label) issues moves current) :
    ∃ s, Runs (Takeable issues policy) (Waits issues policy) (closedNumbers issues) moves s ∧
      Mirrors label issues current s := by
  induction h with
  | nil => exact ⟨_, .nil, mirrors_start issues hdistinct⟩
  | snoc _ last ih =>
    obtain ⟨s, hruns, hmirrors⟩ := ih
    obtain ⟨s', hstep, hmirrors'⟩ := hmirrors.step hdistinct hlabel last
    exact ⟨s', hruns.snoc hstep, hmirrors'⟩

end Mirrors

/-! ### The end -/

/-- The issues that were selected, in turn. -/
def selections (moves : List (Move ℕ)) : List ℕ := moves.filterMap settled

/-- **The end of a backlog.**  No issue is selected twice, and none that was not open; and when
nothing is left to select, closed are the workable issues and no others, in whatever order they were
taken. -/
theorem worked_ends {issues current : List IssueSummary} {policy : SelectionPolicy} {label : Text}
    {moves : List (Move ℕ)} (hdistinct : Distinct issues) (hlabel : label ∈ policy.excludedLabels)
    (h : Path (Worked policy label) issues moves current) :
    (selections moves).Nodup ∧ (∀ number ∈ selections moves, InState issues .opened number) ∧
      ((selectNextIssue current policy).selected = none → ∀ number,
        InState current .closed number ↔ Workable issues policy moves number) := by
  obtain ⟨s, hruns, hmirrors⟩ := worked_mirrors hdistinct hlabel h
  obtain ⟨hnodup, hmay⟩ := took_once hruns
  refine ⟨hnodup, fun number hnumber => ?_, fun hnone number => ?_⟩
  · obtain ⟨⟨issue, hissue, rfl, -⟩, hleft⟩ := hmay number hnumber
    refine ⟨issue, hissue, rfl, ?_⟩
    cases hstate : issue.state with
    | opened => rfl
    | closed => exact absurd ⟨issue, hissue, rfl, hstate⟩ hleft
  · rw [hmirrors.closed]
    refine taken_eq_reached hruns (fun other hready => ?_) number
    obtain ⟨before, hbefore, rfl, -⟩ := hready.may
    obtain ⟨after, hafter, hstood⟩ := hmirrors.after_of_mem hbefore
    have hnow := (hmirrors.ready_iff hdistinct hlabel hbefore hstood).mpr hready
    rw [selectNextIssue_none] at hnone
    exact hnone after hafter ((selectable_iff (hmirrors.distinct hdistinct) after).mpr hnow)

/-- Four issues: the second waits for the first, and the third for the fourth. -/
def queue : List IssueSummary :=
  [⟨1, lit "Read the feeds", .opened, [lit "agent:ready"], none⟩,
    ⟨2, lit "Group the articles", .opened, [lit "agent:ready"], some (lit "Depends on: #1")⟩,
    ⟨3, lit "Show the groups", .opened, [lit "agent:ready"], some (lit "Depends on: #4")⟩,
    ⟨4, lit "Draw a group", .opened, [lit "agent:ready", lit "priority:p0"], none⟩]

/-- The fourth is given up, and the first two are done. -/
theorem queue_worked : Path (Worked defaultSelectionPolicy (lit "agent:blocked")) queue
    [.drop 4, .take 1, .take 2] (close 2 (close 1 (giveUp (lit "agent:blocked") 4 queue))) :=
  ((Path.nil.snoc (.drop (show _ = queue[3]? by decide +kernel))).snoc
    (.take (show _ = queue[0]? by decide +kernel))).snoc
      (.take (show _ = queue[1]? by decide +kernel))

theorem worked_ends_queue : Workable queue defaultSelectionPolicy [.drop 4, .take 1, .take 2] 2 ∧
    ¬ Workable queue defaultSelectionPolicy [.drop 4, .take 1, .take 2] 3 := by
  have hends := (worked_ends (by decide +kernel) (by decide +kernel) queue_worked).2.2
    (by decide +kernel)
  exact ⟨(hends 2).mp (by decide +kernel), fun hthird =>
    absurd ((hends 3).mpr hthird) (by decide +kernel)⟩

/-- **What is never chosen.**  Issues that are open and stay open, each of which depends on one of
them or on a number that is not on the list, are never selected. -/
theorem worked_trapped {issues current : List IssueSummary} {policy : SelectionPolicy}
    {label : Text}
    {moves : List (Move ℕ)} (hdistinct : Distinct issues) (hlabel : label ∈ policy.excludedLabels)
    (h : Path (Worked policy label) issues moves current) {trapped : Set ℕ}
    (hopen : ∀ number ∈ trapped, ¬ InState issues .closed number ∧ .hand number ∉ moves)
    (hwaits : ∀ number ∈ trapped, ∃ other, Waits issues policy number other ∧
      (other ∈ trapped ∨ ∀ issue ∈ issues, issue.number ≠ other)) :
    ∀ number ∈ trapped, number ∉ selections moves := by
  obtain ⟨s, hruns, hmirrors⟩ := worked_mirrors hdistinct hlabel h
  -- What is not on the list is as much out of reach as what is trapped.
  let beyond : Set ℕ := {number | number ∈ trapped ∨ ∀ issue ∈ issues, issue.number ≠ number}
  have hgiven : ∀ number ∈ beyond, number ∉ closedNumbers issues ∪ handing moves := by
    rintro number (htrapped | hmissing) hgiven
    · exact hgiven.elim (hopen number htrapped).1 (hopen number htrapped).2
    · obtain ⟨issue, hissue, hnumber⟩ := hmirrors.listed number (taken_subset hruns hgiven)
      exact hmissing issue hissue hnumber
  have hstuck : ∀ number ∈ beyond, Takeable issues policy number ∧ number ∈ taking moves →
      ∃ other ∈ beyond, Waits issues policy number other := by
    rintro number (htrapped | hmissing) ⟨⟨issue, hissue, hnumber, -⟩, -⟩
    · obtain ⟨other, hwait, hother⟩ := hwaits number htrapped
      exact ⟨other, hother, hwait⟩
    · exact absurd hnumber (hmissing issue hissue)
  intro number htrapped hselected
  obtain ⟨other, hwait, hother⟩ := hwaits number htrapped
  have htaken := waited_of_settled hruns number hselected other hwait
  exact not_reached_of_trapped hgiven hstuck (reached_of_taken hruns other htaken) hother

/-- Two issues wait for each other, and one for an issue that is not on the list. -/
def knotted : List IssueSummary :=
  queue.take 2 ++
    [⟨3, lit "Show the groups", .opened, [lit "agent:ready"], some (lit "Depends on: #5")⟩,
      ⟨5, lit "Draw a group", .opened, [lit "agent:ready"], some (lit "Depends on: #3")⟩,
      ⟨6, lit "Name the groups", .opened, [lit "agent:ready"], some (lit "Depends on: #9")⟩]

theorem knotted_worked : Path (Worked defaultSelectionPolicy (lit "agent:blocked")) knotted
    [.take 1, .take 2] (close 2 (close 1 knotted)) :=
  (Path.nil.snoc (.take (show _ = knotted[0]? by decide +kernel))).snoc
    (.take (show _ = knotted[1]? by decide +kernel))

theorem knotted_waits : Waits knotted defaultSelectionPolicy 3 5 ∧
    Waits knotted defaultSelectionPolicy 5 3 ∧
    Waits knotted defaultSelectionPolicy 6 9 := by
  have hwaits : ∀ issue ∈ knotted, ∀ other ∈ effectiveDependencies defaultSelectionPolicy issue,
      Waits knotted defaultSelectionPolicy issue.number other := fun issue hissue other hother =>
    ⟨issue, hissue, rfl, mem_effectiveDependencies.mp hother⟩
  exact ⟨hwaits knotted[2] (by decide +kernel) 5 (by decide +kernel),
    hwaits knotted[3] (by decide +kernel) 3 (by decide +kernel),
    hwaits knotted[4] (by decide +kernel) 9 (by decide +kernel)⟩

/-- The cycle is never entered, and the third of them never chosen. -/
theorem worked_trapped_cycle : 3 ∉ selections [.take 1, .take 2] ∧
    5 ∉ selections [.take 1, .take 2] ∧ 6 ∉ selections [.take 1, .take 2] := by
  obtain ⟨hthree, hfive, hsix⟩ := knotted_waits
  have hopen : ∀ number ∈ ({3, 5, 6} : Set ℕ), ¬ InState knotted .closed number ∧
      Move.hand number ∉ [Move.take 1, .take 2] := by
    rintro _ (rfl | rfl | rfl) <;> exact ⟨by decide +kernel, by decide⟩
  have hwaits : ∀ number ∈ ({3, 5, 6} : Set ℕ), ∃ other,
    Waits knotted defaultSelectionPolicy number other ∧
      (other ∈ ({3, 5, 6} : Set ℕ) ∨ ∀ issue ∈ knotted, issue.number ≠ other) := by
    rintro _ (rfl | rfl | rfl)
    · exact ⟨5, hthree, .inl (by simp)⟩
    · exact ⟨3, hfive, .inl (by simp)⟩
    · exact ⟨9, hsix, .inr (by decide +kernel)⟩
  have hnever : ∀ number ∈ ({3, 5, 6} : Set ℕ), number ∉ selections [.take 1, .take 2] :=
    worked_trapped (by decide +kernel) (by decide +kernel) knotted_worked hopen hwaits
  exact ⟨hnever 3 (by simp), hnever 5 (by simp), hnever 6 (by simp)⟩

end Newsdeck.Loop

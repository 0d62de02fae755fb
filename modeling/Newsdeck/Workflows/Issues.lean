import Newsdeck.Library.Interleaving
import Newsdeck.Loop.Eligibility

/-!
# The issues that the workflows share

The workflows of the loop keep their state in the labels of the issues.  They run side by side, with
one another and with people; each call is one request to GitHub, which may fail.

* `ApiOp` — the requests, and what else a workflow waits for;
* `apiStep` — what a request does to the issues; `step_cases` — all that it can do;
* `step_labels` — **a label is on an issue because it was there before or because it was given to
  it**;
* `Calm` — nothing fails that has what it needs; `answerApi` is such a world.
-/

namespace Newsdeck.Workflows

open Ecma Effects Loop

/-! ### Labels -/

def ready : Text := lit "agent:ready"
def inProgress : Text := lit "agent:in-progress"
def review : Text := lit "agent:review"
def blocked : Text := lit "agent:blocked"

/-- The labels of the lifecycle, in the order the workflows go through them. -/
def lifecycle : List Text := [ready, inProgress, review, blocked]

/-- What a workflow asks of the coding agent. -/
inductive Request where
  | implement (issue : ℕ)
  | fix (pullRequest : ℕ) (attempt : Text)
  deriving DecidableEq, Repr

/-- What the action reports of a run of the agent, and its log. -/
structure AgentResult where
  /-- The conclusion is `success`. -/
  succeeded : Bool
  turns : Text
  denials : Text
  deriving DecidableEq, Repr

/-- A pull request that a commit belongs to. -/
structure AssociatedPull where
  number : ℕ
  merged : Bool
  body : Option Text
  deriving DecidableEq, Repr

inductive ApiOp where
  | getIssue (number : ℕ)
  | addLabels (number : ℕ) (labels : List Text)
  | removeLabel (number : ℕ) (label : Text)
  | closeIssue (number : ℕ)
  /-- Somebody opens or edits an issue. -/
  | editIssue (issue : IssueSummary)
  | createComment (number : ℕ) (body : Text)
  | listIssues
  | listBranches
  | pullsOfCommit
  | createDispatch (request : Request)
  /-- Checking out, and installing. -/
  | setUp
  | runAgent (prompt : Text)
  deriving DecidableEq, Repr

def ApiOp.Answer : ApiOp → Type
  | getIssue _ => Except Text IssueSummary
  | addLabels _ _ => Except Text Unit
  | removeLabel _ _ => Except Text Unit
  | closeIssue _ => Except Text Unit
  | editIssue _ => Unit
  | createComment _ _ => Except Text Unit
  | listIssues => Except Text (List IssueSummary)
  | listBranches => Except Text (List Text)
  | pullsOfCommit => Except Text (List AssociatedPull)
  | createDispatch _ => Except Text Unit
  | setUp => Bool
  | runAgent _ => AgentResult

abbrev ApiEvent := Event ApiOp ApiOp.Answer

abbrev Script (α : Type) := Prog ApiOp ApiOp.Answer Text α

/-! ### The store -/

def labelsOf (s : List IssueSummary) (number : ℕ) : List Text :=
  ((s.find? fun issue => issue.number = number).map IssueSummary.labels).getD []

def changeIssue (number : ℕ) (f : IssueSummary → IssueSummary) (s : List IssueSummary) :
    List IssueSummary :=
  s.map fun issue => if issue.number = number then f issue else issue

def giveLabels (labels : List Text) (issue : IssueSummary) : IssueSummary :=
  { issue with labels := issue.labels ++ labels.filter fun label => label ∉ issue.labels }

def takeLabel (label : Text) (issue : IssueSummary) : IssueSummary :=
  { issue with labels := issue.labels.filter fun other => other ≠ label }

def closed (issue : IssueSummary) : IssueSummary := { issue with state := .closed }

/-- An issue as somebody left it. -/
def putIssue (issue : IssueSummary) (s : List IssueSummary) : List IssueSummary :=
  if s.any fun other => other.number = issue.number then changeIssue issue.number (fun _ => issue) s
  else s ++ [issue]

/-- A change that is made, or refused; or made, and the answer is lost. -/
def Changes (s t : List IssueSummary) (answer : Except Text Unit) (s' : List IssueSummary) : Prop :=
  match answer with
  | .ok _ => s' = t
  | .error _ => s' = s ∨ s' = t

/-- A label that an issue does not have is not removed. -/
def apiStep (s : List IssueSummary) (event : ApiEvent) (s' : List IssueSummary) : Prop :=
  match event with
  | ⟨.getIssue number, answer⟩ =>
      (∀ issue, answer = .ok issue → s.find? (fun issue => issue.number = number) = some issue) ∧
        s' = s
  | ⟨.addLabels number labels, answer⟩ =>
    Changes s (changeIssue number (giveLabels labels) s) answer s'
  | ⟨.removeLabel number label, answer⟩ =>
      (answer = .ok () → label ∈ labelsOf s number) ∧
        Changes s (changeIssue number (takeLabel label) s) answer s'
  | ⟨.closeIssue number, answer⟩ => Changes s (changeIssue number closed s) answer s'
  | ⟨.editIssue issue, _⟩ => s' = putIssue issue s
  | ⟨.listIssues, answer⟩ => (∀ issues, answer = .ok issues → issues.Perm s) ∧ s' = s
  | _ => s' = s

/-! ### What a step does to the labels -/

/-- The event gives the label to the issue. -/
def gives (number : ℕ) (label : Text) (op : ApiOp) : Bool :=
  match op with
  | .addLabels given labels => given = number && labels.contains label
  | .editIssue issue => issue.number = number && issue.labels.contains label
  | _ => false

section Labels

variable {s s' : List IssueSummary} {number : ℕ} {f : IssueSummary → IssueSummary} {label : Text}

theorem find_changeIssue (hf : ∀ issue, issue.number = number → (f issue).number = number)
    (other : ℕ) :
    (changeIssue number f s).find? (fun issue => issue.number = other) =
      (s.find? fun issue => issue.number = other).map
        fun issue => if other = number then f issue else issue := by
  unfold changeIssue
  induction s with
  | nil => rfl
  | cons issue s ih =>
    have hnumber : (if issue.number = number then f issue else issue).number = issue.number := by
      split
      · rename_i hsame
        rw [hf issue hsame, hsame]
      · rfl
    rw [List.map_cons, List.find?_cons, List.find?_cons, hnumber]
    by_cases hother : issue.number = other
    · subst hother
      simp
    · simp only [hother, decide_false]
      exact ih

theorem labelsOf_changeIssue (hf : ∀ issue, issue.number = number → (f issue).number = number)
    (other : ℕ) :
    labelsOf (changeIssue number f s) other = if other = number then
      ((s.find? fun issue => issue.number = other).map fun issue => (f issue).labels).getD []
    else labelsOf s other := by
  unfold labelsOf
  rw [find_changeIssue hf]
  split <;> simp [Function.comp_def]

theorem mem_labelsOf_giveLabels {labels : List Text} {other : ℕ}
    (h : label ∈ labelsOf (changeIssue number (giveLabels labels) s) other) :
    label ∈ labelsOf s other ∨ (other = number ∧ label ∈ labels) := by
  have hf : ∀ issue, issue.number = number → (giveLabels labels issue).number = number :=
    fun _ h => h
  rw [labelsOf_changeIssue hf] at h
  split at h
  · rename_i hsame
    unfold labelsOf
    cases hfind : s.find? fun issue => issue.number = other with
    | none => simp [hfind] at h
    | some issue =>
      rw [hfind] at h
      rcases List.mem_append.mp h with hold | hnew
      · exact .inl hold
      · exact .inr ⟨hsame, (List.mem_filter.mp hnew).1⟩
  · exact .inl h

theorem labelsOf_giveLabels {labels : List Text}
    (hfound : (s.find? fun issue => issue.number = number).isSome) :
    label ∈ labelsOf (changeIssue number (giveLabels labels) s) number ↔
      label ∈ labelsOf s number ∨ label ∈ labels := by
  have hf : ∀ issue, issue.number = number → (giveLabels labels issue).number = number :=
    fun _ h => h
  obtain ⟨issue, hissue⟩ := Option.isSome_iff_exists.mp hfound
  rw [labelsOf_changeIssue hf, if_pos rfl]
  unfold labelsOf
  rw [hissue]
  simp only [giveLabels, Option.map_some, Option.getD_some, List.mem_append, List.mem_filter,
    decide_eq_true_eq]
  tauto

theorem mem_labelsOf_takeLabel {removed : Text} {other : ℕ} :
    label ∈ labelsOf (changeIssue number (takeLabel removed) s) other ↔
      label ∈ labelsOf s other ∧ ¬ (other = number ∧ label = removed) := by
  have hf : ∀ issue, issue.number = number → (takeLabel removed issue).number = number :=
    fun _ h => h
  rw [labelsOf_changeIssue hf]
  split
  · rename_i hsame
    unfold labelsOf
    cases s.find? fun issue => issue.number = other with
    | none => simp
    | some issue => simp [takeLabel, hsame]
  · rename_i hother
    simp [hother]

theorem labelsOf_closed (other : ℕ) : labelsOf (changeIssue number closed s) other =
    labelsOf s other := by
  have hf : ∀ issue, issue.number = number → (closed issue).number = number := fun _ h => h
  rw [labelsOf_changeIssue hf]
  split
  · rfl
  · rfl

theorem labelsOf_putIssue {issue : IssueSummary} (other : ℕ) :
    labelsOf (putIssue issue s) other = if other = issue.number then issue.labels
      else labelsOf s other := by
  unfold putIssue
  split
  · rename_i hany
    obtain ⟨found, hfound, hnumber⟩ := List.any_eq_true.mp hany
    have hsome : (s.find? fun other => other.number = issue.number).isSome = true :=
      List.find?_isSome.mpr ⟨found, hfound, hnumber⟩
    rw [labelsOf_changeIssue fun _ _ => rfl]
    split
    · rename_i hsame
      obtain ⟨found, hfound⟩ := Option.isSome_iff_exists.mp hsome
      rw [hsame, hfound]
      rfl
    · rfl
  · rename_i hnone
    have hnotFound : (s.find? fun other => other.number = issue.number) = none :=
      List.find?_eq_none.mpr fun found hfound hnumber =>
        hnone (List.any_eq_true.mpr ⟨found, hfound, hnumber⟩)
    unfold labelsOf
    rw [List.find?_append, List.find?_singleton]
    by_cases hsame : issue.number = other
    · subst hsame
      simp [hnotFound]
    · simp [hsame, Ne.symm hsame]

theorem mem_labelsOf_putIssue {issue : IssueSummary} {other : ℕ}
    (h : label ∈ labelsOf (putIssue issue s) other) :
    label ∈ labelsOf s other ∨ (issue.number = other ∧ label ∈ issue.labels) := by
  rw [labelsOf_putIssue] at h
  split at h
  · rename_i hsame
    exact .inr ⟨hsame.symm, h⟩
  · exact .inl h

/-- How an operation changes an issue, and which. -/
def change : ApiOp → Option (ℕ × (IssueSummary → IssueSummary))
  | .addLabels number labels => some (number, giveLabels labels)
  | .removeLabel number label => some (number, takeLabel label)
  | .closeIssue number => some (number, closed)
  | _ => none

theorem change_number {op : ApiOp} (h : change op = some (number, f)) (issue : IssueSummary) :
    (f issue).number = issue.number := by
  cases op with
  | addLabels other labels =>
    obtain ⟨rfl, rfl⟩ := Prod.mk.inj (Option.some.inj h)
    rfl
  | removeLabel other label =>
    obtain ⟨rfl, rfl⟩ := Prod.mk.inj (Option.some.inj h)
    rfl
  | closeIssue other =>
    obtain ⟨rfl, rfl⟩ := Prod.mk.inj (Option.some.inj h)
    rfl
  | _ => cases h

/-- What a step can do. -/
theorem step_cases {event : ApiEvent} (h : apiStep s event s') :
    s' = s ∨ (∃ number f, change event.op = some (number, f) ∧ s' = changeIssue number f s) ∨
      ∃ issue, event.op = .editIssue issue ∧ s' = putIssue issue s := by
  have hchanges : ∀ {op : ApiOp} {number f} {answer : Except Text Unit},
    change op = some (number, f) →
      Changes s (changeIssue number f s) answer s' → s' = s ∨
        (∃ number f, change op = some (number, f) ∧ s' = changeIssue number f s) ∨
          ∃ issue, op = .editIssue issue ∧ s' = putIssue issue s := by
    intro op number f answer hop hchanges
    cases answer with
    | ok done => exact .inr (.inl ⟨number, f, hop, hchanges⟩)
    | error message => exact hchanges.imp_right fun hdone => .inl ⟨number, f, hop, hdone⟩
  obtain ⟨op, answer⟩ := event
  cases op with
  | getIssue number => exact .inl h.2
  | addLabels number labels => exact hchanges rfl h
  | removeLabel number label => exact hchanges rfl h.2
  | closeIssue number => exact hchanges rfl h
  | editIssue issue => exact .inr (.inr ⟨issue, rfl, h⟩)
  | listIssues => exact .inl h.2
  | createComment number body => exact .inl h
  | listBranches => exact .inl h
  | pullsOfCommit => exact .inl h
  | createDispatch request => exact .inl h
  | setUp => exact .inl h
  | runAgent prompt => exact .inl h

/-- A label is on an issue because it was there before or because it was given to it. -/
theorem step_labels {event : ApiEvent} (h : apiStep s event s')
    (hlabel : label ∈ labelsOf s' number) :
    label ∈ labelsOf s number ∨ gives number label event.op = true := by
  rcases step_cases h with rfl | ⟨other, f, hop, rfl⟩ | ⟨issue, hop, rfl⟩
  · exact .inl hlabel
  · obtain ⟨op, answer⟩ := event
    cases op with
    | addLabels given labels =>
      obtain ⟨rfl, rfl⟩ := Prod.mk.inj (Option.some.inj hop)
      refine (mem_labelsOf_giveLabels hlabel).imp_right fun ⟨hsame, hnew⟩ => ?_
      simp [gives, hsame, hnew]
    | removeLabel given removed =>
      obtain ⟨rfl, rfl⟩ := Prod.mk.inj (Option.some.inj hop)
      exact .inl (mem_labelsOf_takeLabel.mp hlabel).1
    | closeIssue given =>
      obtain ⟨rfl, rfl⟩ := Prod.mk.inj (Option.some.inj hop)
      exact .inl (labelsOf_closed number ▸ hlabel)
    | _ => cases hop
  · refine (mem_labelsOf_putIssue hlabel).imp_right fun ⟨hsame, hnew⟩ => ?_
    rw [hop]
    simp [gives, hsame, hnew]

end Labels

/-! ### When nothing fails -/

def Present (number : ℕ) (s : List IssueSummary) : Prop :=
  (s.find? fun issue => issue.number = number).isSome = true

instance (number : ℕ) (s : List IssueSummary) : Decidable (Present number s) :=
  inferInstanceAs (Decidable (_ = true))

/-- Nothing fails that has what it needs.  Installing and the agent may fail. -/
def Calm (s : List IssueSummary) (event : ApiEvent) : Prop :=
  match event with
  | ⟨.getIssue number, answer⟩ => Present number s → ∃ issue, answer = .ok issue
  | ⟨.addLabels number _, answer⟩ => Present number s → answer = .ok ()
  | ⟨.removeLabel number label, answer⟩ => label ∈ labelsOf s number → answer = .ok ()
  | ⟨.closeIssue number, answer⟩ => Present number s → answer = .ok ()
  | ⟨.createComment number _, answer⟩ => Present number s → answer = .ok ()
  | ⟨.listIssues, answer⟩ => ∃ issues, answer = .ok issues
  | ⟨.listBranches, answer⟩ => ∃ names, answer = .ok names
  | ⟨.pullsOfCommit, answer⟩ => ∃ pulls, answer = .ok pulls
  | ⟨.createDispatch _, answer⟩ => answer = .ok ()
  | _ => True

/-- Nothing fails that has what it needs, and before each request others may act. -/
def Around (others : List IssueSummary → List IssueSummary → Prop) (s : List IssueSummary)
    (event : ApiEvent) (t : List IssueSummary) : Prop :=
  ∃ u, others s u ∧ Calm u event ∧ apiStep u event t

section Calm

variable {s s' : List IssueSummary} {number other : ℕ} {f : IssueSummary → IssueSummary}
    {label : Text}

theorem present_changeIssue (hf : ∀ issue, issue.number = number → (f issue).number = number) :
    Present other (changeIssue number f s) ↔ Present other s := by
  unfold Present
  rw [find_changeIssue hf, Option.isSome_map]

theorem present_putIssue {issue : IssueSummary} (h : Present other s) :
    Present other (putIssue issue s) := by
  unfold putIssue
  split
  · exact (present_changeIssue fun _ _ => rfl).mpr h
  · unfold Present
    rw [List.find?_append, Option.isSome_or, show (s.find? _).isSome = true from h, Bool.true_or]

theorem present_of_putIssue {issue : IssueSummary} (hother : other ≠ issue.number)
    (h : Present other (putIssue issue s)) : Present other s := by
  unfold putIssue at h
  split at h
  · exact (present_changeIssue fun _ _ => rfl).mp h
  · unfold Present at h ⊢
    rw [List.find?_append, List.find?_singleton, if_neg (by simpa using hother.symm),
      Option.or_none] at h
    exact h

/-- No issue disappears. -/
theorem step_present {event : ApiEvent} (h : apiStep s event s') (hs : Present other s) :
    Present other s' := by
  rcases step_cases h with rfl | ⟨number, f, hop, rfl⟩ | ⟨issue, -, rfl⟩
  · exact hs
  · exact (present_changeIssue fun issue hissue => (change_number hop issue).trans hissue).mpr hs
  · exact present_putIssue hs

theorem distinct_changeIssue (hf : ∀ issue, issue.number = number → (f issue).number = number)
    (h : Distinct s) :
    Distinct (changeIssue number f s) := by
  have hnumbers : (changeIssue number f s).map IssueSummary.number = s.map IssueSummary.number := by
    rw [changeIssue, List.map_map]
    refine List.map_congr_left fun issue _ => ?_
    show (if issue.number = number then f issue else issue).number = issue.number
    split
    · rename_i hsame
      rw [hf issue hsame, hsame]
    · rfl
  unfold Distinct
  rw [hnumbers]
  exact h

theorem distinct_putIssue {issue : IssueSummary} (h : Distinct s) :
    Distinct (putIssue issue s) := by
  unfold putIssue
  split
  · exact distinct_changeIssue (fun _ _ => rfl) h
  · rename_i hnone
    unfold Distinct
    rw [List.map_append, List.nodup_append]
    refine ⟨h, List.nodup_singleton _, ?_⟩
    rintro a ha b hb rfl
    obtain ⟨other, hother, hnumber⟩ := List.mem_map.mp ha
    have hsame : other.number = issue.number := hnumber.trans (List.mem_singleton.mp hb)
    exact hnone (List.any_eq_true.mpr ⟨other, hother, decide_eq_true hsame⟩)

/-- No issue appears twice. -/
theorem step_distinct {event : ApiEvent} (h : apiStep s event s') (hs : Distinct s) :
    Distinct s' := by
  rcases step_cases h with rfl | ⟨number, f, hop, rfl⟩ | ⟨issue, -, rfl⟩
  · exact hs
  · exact distinct_changeIssue (fun issue hissue => (change_number hop issue).trans hissue) hs
  · exact distinct_putIssue hs

/-- A label that is taken off when nothing fails is off. -/
theorem calm_removeLabel {answer : Except Text Unit}
    (h : apiStep s ⟨.removeLabel number label, answer⟩ s')
    (hcalm : Calm s ⟨.removeLabel number label, answer⟩) :
      s' = changeIssue number (takeLabel label) s ∨
      (s' = s ∧ label ∉ labelsOf s number) := by
  by_cases hlabel : label ∈ labelsOf s number
  · obtain rfl : answer = .ok () := hcalm hlabel
    exact .inl h.2
  · cases answer with
    | ok done => exact absurd (h.1 rfl) hlabel
    | error message => exact h.2.symm.imp_right fun hsame => ⟨hsame, hlabel⟩

end Calm

/-! ### One issue -/

section Has

variable {number : ℕ} {s : List IssueSummary}

/-- Others leave the issue alone. -/
def Untouched (number : ℕ) (s u : List IssueSummary) : Prop :=
  (u.find? fun issue => issue.number = number) = s.find? fun issue => issue.number = number

/-- The issue is there, and is as it is said to be. -/
def Has (number : ℕ) (P : IssueSummary → Prop) (s : List IssueSummary) : Prop :=
  ∃ issue, (s.find? fun issue => issue.number = number) = some issue ∧ P issue

theorem has_changeIssue {P Q : IssueSummary → Prop} {f : IssueSummary → IssueSummary}
    (hf : ∀ issue, (f issue).number = issue.number) (hPQ : ∀ issue, P issue → Q (f issue))
    (h : Has number P s) :
    Has number Q (changeIssue number f s) := by
  obtain ⟨issue, hfound, hissue⟩ := h
  refine ⟨f issue, ?_, hPQ issue hissue⟩
  rw [find_changeIssue fun issue h => (hf issue).trans h, hfound, Option.map_some, if_pos rfl]

theorem Has.untouched {P : IssueSummary → Prop} {u : List IssueSummary} (h : Has number P s)
    (hu : Untouched number s u) : Has number P u := by
  obtain ⟨issue, hfound, hissue⟩ := h
  exact ⟨issue, hu.trans hfound, hissue⟩

theorem Has.present {P : IssueSummary → Prop} (h : Has number P s) : Present number s := by
  obtain ⟨issue, hfound, -⟩ := h
  rw [Present, hfound]
  rfl

end Has

/-! ### A world -/

section World

variable {s s' : List IssueSummary} {number : ℕ} {f : IssueSummary → IssueSummary}

/-- A world in which nothing fails, with what the agent says, and the branches and pull requests
there are. -/
def answerApi (agent : AgentResult) (branches : List Text) (pulls : List AssociatedPull)
    (s : List IssueSummary) :
    (op : ApiOp) → Option (op.Answer × List IssueSummary)
  | .getIssue number =>
      match s.find? fun issue => issue.number = number with
      | some issue => some (.ok issue, s)
      | none => some (.error (lit "Not Found"), s)
  | .addLabels number labels => some (changing number (giveLabels labels))
  | .removeLabel number label =>
      if label ∈ labelsOf s number then some (.ok (), changeIssue number (takeLabel label) s)
      else some (.error (lit "Not Found"), s)
  | .closeIssue number => some (changing number closed)
  | .editIssue issue => some ((), putIssue issue s)
  | .createComment number _ => some ((changing number id).1, s)
  | .listIssues => some (.ok s, s)
  | .listBranches => some (.ok branches, s)
  | .pullsOfCommit => some (.ok pulls, s)
  | .createDispatch _ => some (.ok (), s)
  | .setUp => some (true, s)
  | .runAgent _ => some (agent, s)
where
  /-- A change of an issue that there is. -/
  changing (number : ℕ) (f : IssueSummary → IssueSummary) : Except Text Unit × List IssueSummary :=
    if s.any fun issue => issue.number = number then (.ok (), changeIssue number f s)
    else (.error (lit "Not Found"), s)

theorem calm_changing {answer : Except Text Unit}
    (h : answerApi.changing s number f = (answer, s')) :
    (Present number s → answer = .ok ()) ∧ Changes s (changeIssue number f s) answer s' := by
  unfold answerApi.changing at h
  split at h
  · obtain ⟨rfl, rfl⟩ := Prod.mk.inj h
    exact ⟨fun _ => rfl, rfl⟩
  · rename_i hnone
    obtain ⟨rfl, rfl⟩ := Prod.mk.inj h
    refine ⟨fun hpresent => ?_, .inl rfl⟩
    rw [Present, List.find?_isSome] at hpresent
    obtain ⟨issue, hissue, hnumber⟩ := hpresent
    exact absurd (List.any_eq_true.mpr ⟨issue, hissue, hnumber⟩) hnone

theorem calm_answerApi {agent : AgentResult} {branches : List Text} {pulls : List AssociatedPull}
    {op : ApiOp}
    {answer : op.Answer} (h : answerApi agent branches pulls s op = some (answer, s')) :
    Calm s ⟨op, answer⟩ ∧ apiStep s ⟨op, answer⟩ s' := by
  cases op with
  | getIssue number =>
    cases hissue : s.find? fun issue => issue.number = number with
    | some issue =>
      simp only [answerApi, hissue] at h
      obtain ⟨rfl, rfl⟩ := Prod.mk.inj (Option.some.inj h)
      exact ⟨fun _ => ⟨issue, rfl⟩, fun found hfound => Except.ok.inj hfound ▸ hissue, rfl⟩
    | none =>
      simp only [answerApi, hissue] at h
      obtain ⟨rfl, rfl⟩ := Prod.mk.inj (Option.some.inj h)
      refine ⟨fun hpresent => ?_, nofun, rfl⟩
      rw [Present, hissue] at hpresent
      cases hpresent
  | addLabels number labels => exact calm_changing (Option.some.inj h)
  | removeLabel number label =>
    by_cases hlabel : label ∈ labelsOf s number
    · simp only [answerApi, if_pos hlabel] at h
      obtain ⟨rfl, rfl⟩ := Prod.mk.inj (Option.some.inj h)
      exact ⟨fun _ => rfl, fun _ => hlabel, rfl⟩
    · simp only [answerApi, if_neg hlabel] at h
      obtain ⟨rfl, rfl⟩ := Prod.mk.inj (Option.some.inj h)
      exact ⟨fun hlabel' => absurd hlabel' hlabel, nofun, .inl rfl⟩
  | closeIssue number => exact calm_changing (Option.some.inj h)
  | editIssue issue =>
    obtain ⟨rfl, rfl⟩ := Prod.mk.inj (Option.some.inj h)
    exact ⟨trivial, rfl⟩
  | createComment number body =>
    obtain ⟨rfl, rfl⟩ := Prod.mk.inj (Option.some.inj h)
    exact ⟨(calm_changing (f := id) rfl).1, rfl⟩
  | listIssues =>
    obtain ⟨rfl, rfl⟩ := Prod.mk.inj (Option.some.inj h)
    exact ⟨⟨s, rfl⟩, fun issues hissues => Except.ok.inj hissues ▸ List.Perm.refl s, rfl⟩
  | listBranches =>
    obtain ⟨rfl, rfl⟩ := Prod.mk.inj (Option.some.inj h)
    exact ⟨⟨branches, rfl⟩, rfl⟩
  | pullsOfCommit =>
    obtain ⟨rfl, rfl⟩ := Prod.mk.inj (Option.some.inj h)
    exact ⟨⟨pulls, rfl⟩, rfl⟩
  | createDispatch request =>
    obtain ⟨rfl, rfl⟩ := Prod.mk.inj (Option.some.inj h)
    exact ⟨rfl, rfl⟩
  | setUp =>
    obtain ⟨rfl, rfl⟩ := Prod.mk.inj (Option.some.inj h)
    exact ⟨trivial, rfl⟩
  | runAgent prompt =>
    obtain ⟨rfl, rfl⟩ := Prod.mk.inj (Option.some.inj h)
    exact ⟨trivial, rfl⟩

end World

end Newsdeck.Workflows

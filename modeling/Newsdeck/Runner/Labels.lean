import Newsdeck.Runner.Rehearsal

/-!
# The labels an issue is left with

A run of `workIssue` that comes to an end after it claimed the issue is meant to leave it without
the label of a run at work: under review when a pull request was opened, blocked otherwise.  It does
so as long as every failure meets a handler.

* `Strands` — the failures that meet none;
* `Working`, `Stuck` — the invariant of the run, and what such a failure leaves behind;
* `claim_leaves`, `runRounds_leaves`, `publish_leaves` — the parts of `workIssue`;
* `labels_left_iff` — the labels are right at the end exactly when nothing of the kind happened.
-/

namespace Newsdeck.Runner

open Ecma Loop Effects Effects.Prog

/-- The labels of the issue, and what has happened to it. -/
structure Labelled where
  labels : List Text
  /-- The run has claimed the issue. -/
  begun : Bool
  /-- It has opened a pull request, or found the branch's own still open. -/
  opened : Bool
  /-- Some failure since has met no handler. -/
  stranded : Bool
  /-- What `git diff` printed last. -/
  rawDiff : Text

def Labelled.note (w : Labelled) (stranded : Bool) : Labelled :=
  { w with stranded := w.stranded || (w.begun && stranded) }

def Labelled.label (w : Labelled) (added : List Text) (ok : Bool) : Labelled :=
  if ok then { w with labels := w.labels ++ added, begun := w.begun || added = [inProgressLabel] }
  else w

def Labelled.unlabel (w : Labelled) (removed : Text) (ok : Bool) : Labelled :=
  if ok then { w with labels := w.labels.filter fun label => label ≠ removed } else w

def Labelled.opens (w : Labelled) (ok : Bool) : Labelled := { w with opened := w.opened || ok }

/-- What the worktree's policy file proposes, when it can be read. -/
def headPolicyOf (answer : Except Text Text) (fallback : LoopPolicy) : Option LoopPolicy :=
  match answer with
  | .error _ => none
  | .ok text => proposedPolicyOf text fallback

section World

variable [Host] [Unicode] (deps : RunnerDeps) (issue : IssueSummary)

/-- A label call that throws leaves the labels as they are. -/
def Labelled.moved (w : Labelled) : RunnerEvent → Labelled
  | ⟨.addLabels number added, answer⟩ =>
      if number = issue.number then w.label added (succeeded answer) else w
  | ⟨.removeLabel number removed, answer⟩ =>
      if number = issue.number then w.unlabel removed (succeeded answer) else w
  | ⟨.createPullRequest _, answer⟩ => w.opens (succeeded answer)
  | ⟨.pullRequestForBranch _, .ok (some pr)⟩ => w.opens (Unicode.toUpperCase pr.state = lit "OPEN")
  | ⟨.git _ args, .ok result⟩ =>
      if args = diffArgs deps.base then { w with rawDiff := result.stdout } else w
  | _ => w

/-- The failures no handler is there for.  A label that could not be added does no harm to an issue
that carries it; of the git commands it is the two that read the change. -/
def Strands (w : Labelled) : RunnerEvent → Bool
  | ⟨.addLabels _ added, answer⟩ => !succeeded answer && !added.all (· ∈ w.labels)
  | ⟨.removeLabel _ _, answer⟩ => !succeeded answer
  | ⟨.writeJournal _, answer⟩ => !succeeded answer
  | ⟨.logLine _, answer⟩ => !succeeded answer
  | ⟨.logArtifact _ _, answer⟩ => !succeeded answer
  | ⟨.install _, answer⟩ => !succeeded answer
  | ⟨.implement _, answer⟩ => !succeeded answer
  | ⟨.verify _, answer⟩ => !succeeded answer
  | ⟨.review _ _, answer⟩ => !succeeded answer
  | ⟨.pullRequestForBranch _, answer⟩ => !succeeded answer
  | ⟨.createPullRequest _, answer⟩ => !succeeded answer
  | ⟨.git _ args, .error _⟩ => args = changedFilesArgs deps.base || args = diffArgs deps.base
  | ⟨.git _ args, .ok result⟩ => args = changedFilesArgs deps.base && result.code ≠ 0
  | ⟨.readPolicyFile _, answer⟩ =>
      (classifyRiskMonotonic ⟨parseUnifiedDiff w.rawDiff, issue.labels, deps.policy,
        headPolicyOf answer deps.policy⟩).isNone
  | _ => false

def labelStep (w : Labelled) (event : RunnerEvent) : Labelled :=
  (w.moved deps issue event).note (Strands deps issue w event)

/-- The issue after these events, which carried the labels before them. -/
def labelsAfter (labels : List Text) (trace : List RunnerEvent) : Labelled :=
  trace.foldl (labelStep deps issue) ⟨labels, false, false, false, []⟩

end World

/-- The issue is no longer being worked on, and its labels say what has become of it. -/
def Labelled.Settled (w : Labelled) : Prop :=
  inProgressLabel ∉ w.labels ∧ (if w.opened then reviewLabel else blockedLabel) ∈ w.labels

instance (w : Labelled) : Decidable w.Settled := inferInstanceAs (Decidable (_ ∧ _))

/-- The run is under way, and nothing has gone wrong. -/
structure Working (opened : Bool) (w : Labelled) : Prop where
  begun : w.begun = true
  carried : inProgressLabel ∈ w.labels
  same : w.opened = opened
  sound : w.stranded = false

/-- The issue still carries the label of a run at work, and a failure met no handler. -/
structure Stuck (w : Labelled) : Prop where
  carried : inProgressLabel ∈ w.labels
  stranded : w.stranded = true

/-- What is to be shown of every end. -/
def Left (w : Labelled) : Prop := w.begun = true → (w.Settled ↔ w.stranded = false)

theorem Stuck.left {w : Labelled} (h : Stuck w) : Left w := fun _ =>
  iff_of_false (fun hsettled => hsettled.1 h.carried) (by simp [h.stranded])

theorem left_of_unbegun {w : Labelled} (h : w.begun = false) : Left w := by
  intro hbegun
  rw [h] at hbegun
  exact absurd hbegun (by simp)

/-! ### Rules -/

section Rules

variable [Host] [Unicode] {deps : RunnerDeps} {issue : IssueSummary} {opened : Bool} {w : Labelled}
  {α β : Type}

/-- Every end is a good one, and a run that returns meets the postcondition. -/
abbrev Leaves (deps : RunnerDeps) (issue : IssueSummary) (p : Action α) (w : Labelled)
    (post : α → Labelled → Prop) : Prop :=
  Ensures (Folds (labelStep deps issue)) (fun _ => True) (fun _ => Left) p w post

omit [Host] [Unicode] in
theorem Working.note (h : Working opened w) (stranded : Bool) :
    if stranded then Stuck (w.note stranded) else Working opened (w.note stranded) := by
  cases stranded with
  | false => exact ⟨h.begun, h.carried, h.same, by simp [Labelled.note, h.sound]⟩
  | true => exact ⟨h.carried, by simp [Labelled.note, h.begun]⟩

/-- A call outside every handler. -/
theorem strict (op : Op) (answerOf : op.Answer → Except Text α) (h : Working opened w)
    (hstep : ∀ answer, labelStep deps issue w ⟨op, answer⟩ =
      w.note (!succeeded (answerOf answer))) :
    Leaves deps issue (.call op fun answer => raise (answerOf answer)) w
      fun _ w' => Working opened w' := by
  refine ensures_call trivial fun answer w' hw => ?_
  rw [Folds, hstep] at hw
  subst hw
  have hnote := h.note (!succeeded (answerOf answer))
  refine ensures_raise (fun a ha => ?_) fun e he => ?_
  · simpa [ha, succeeded] using hnote
  · have hstuck : Stuck (w.note (!succeeded (answerOf answer))) := by
      simpa [he, succeeded] using hnote
    exact hstuck.left

/-- Whatever it is answered, the run goes on. -/
def Harmless (deps : RunnerDeps) (issue : IssueSummary) (op : Op) : Prop :=
  ∀ answer w opened, Working opened w → Working opened (labelStep deps issue w ⟨op, answer⟩)

theorem harmless_keeps {p : Action α} (hp : p.Emits (Harmless deps issue)) (h : Working opened w) :
    Ensures (Folds (labelStep deps issue)) (Working opened) (fun _ => Working opened) p w
      fun _ => Working opened := by
  refine ensures_emits (Working opened) hp (fun op answer s s' hop hs hstep => ?_) h
  rw [hstep]
  exact hop answer s opened hs

/-- A part that asks for something and cannot fail. -/
theorem ask_bind {op : Op} {f : op.Answer → Action β} {post : β → Labelled → Prop}
    (hop : Harmless deps issue op) (h : Working opened w)
    (hf : ∀ answer w', Working opened w' → Leaves deps issue (f answer) w' post) :
    Leaves deps issue (.call op .ret >>= f) w post := by
  refine ensures_call trivial fun answer w' hw => hf answer w' ?_
  rw [hw]
  exact hop answer w opened h

/-- A part inside a handler. -/
theorem guarded_bind {p : Action α} {f : Except Text α → Action β} {post : β → Labelled → Prop}
    (hp : p.Emits (Harmless deps issue)) (h : Working opened w)
    (hf : ∀ result w', Working opened w' → Leaves deps issue (f result) w' post) :
    Leaves deps issue (p.attempt >>= f) w post := by
  refine ensures_bind (ensures_attempt ?_)
  exact (harmless_keeps hp h).mono (fun a w' hw => hf (.ok a) w' hw)
    (fun e w' hw => hf (.error e) w' hw) fun _ _ => trivial

theorem save_leaves {draft : Draft} (h : Working opened w) :
    Leaves deps issue (save draft) w fun _ w' => Working opened w' := by
  unfold save
  exact ensures_bind ((strict (.writeJournal _) id h fun _ => rfl).weaken
    fun _ _ h => ensures_ret h)

theorem logLine_leaves {text : Text} (h : Working opened w) :
    Leaves deps issue (logLine text) w fun _ w' => Working opened w' :=
  strict (.logLine text) id h fun _ => rfl

theorem logArtifact_leaves {name : Text} {value : Artifact} (h : Working opened w) :
    Leaves deps issue (logArtifact name value) w fun _ w' => Working opened w' :=
  strict (.logArtifact name value) id h fun _ => rfl

omit [Host] [Unicode] in
@[simp] theorem note_false (w : Labelled) : w.note false = w := by
  simp [Labelled.note]

theorem harmless_of_note {op : Op}
    (hstep : ∀ answer w, labelStep deps issue w ⟨op, answer⟩ = w.note false) :
    Harmless deps issue op := by
  intro answer w opened h
  rwa [hstep, note_false]

/-- A git command that does not read the change. -/
def Unread (deps : RunnerDeps) (args : List Text) : Prop :=
  args ≠ changedFilesArgs deps.base ∧ args ≠ diffArgs deps.base

theorem harmless_git {cwd : Text} {args : List Text} (hargs : Unread deps args) :
    Harmless deps issue (.git cwd args) := by
  rintro answer w opened h
  have hstep : labelStep deps issue w ⟨.git cwd args, answer⟩ = w := by
    cases answer with
    | error e => simp [labelStep, Labelled.moved, Strands, hargs.1, hargs.2]
    | ok result => simp [labelStep, Labelled.moved, Strands, hargs.1, hargs.2]
  rwa [hstep]

end Rules

/-! ### Git inside a handler -/

section Guarded

variable [Host] [Unicode] {deps : RunnerDeps} {issue : IssueSummary}

theorem git_guarded {cwd : Text} {args : List Text} (hargs : Unread deps args) :
    (git cwd args).Emits (Harmless deps issue) :=
  ⟨harmless_git hargs, fun answer => emits_raise answer⟩

theorem expect_guarded {cwd : Text} {args : List Text} (hargs : Unread deps args) :
    (expect cwd args).Emits (Harmless deps issue) := by
  unfold expect
  refine emits_bind (git_guarded hargs) fun result => ?_
  split <;> trivial

omit [Host] [Unicode] in
theorem elsewhere_of_head {arg : Text} {args : List Text} (h : arg ≠ lit "diff") :
    Unread deps (arg :: args) := by
  constructor
  · intro hargs
    exact h (List.cons.inj hargs).1
  · intro hargs
    exact h (List.cons.inj hargs).1

omit [Host] [Unicode] in
theorem elsewhere_staged : Unread deps [lit "diff", lit "--cached", lit "--quiet"] := by
  constructor
  · intro hargs
    simp [changedFilesArgs] at hargs
  · intro hargs
    simp [diffArgs] at hargs

theorem prepare_guarded (job : Job) : (prepare job).Emits (Harmless deps issue) := by
  unfold prepare
  refine emits_bind ?_ fun _ => emits_bind ?_ fun _ => ?_
  · unfold fetchBase
    exact emits_bind (expect_guarded (elsewhere_of_head (by simp))) fun _ => trivial
  · unfold ensureWorktree
    split
    · trivial
    · refine emits_bind (git_guarded (elsewhere_of_head (by simp))) fun existing => ?_
      split
      · trivial
      · refine emits_bind (git_guarded (elsewhere_of_head (by simp))) fun branchExists => ?_
        refine emits_bind (expect_guarded ?_) fun _ => trivial
        split
        · exact elsewhere_of_head (by simp)
        · exact elsewhere_of_head (by simp)
  · unfold rebaseOntoBase
    refine emits_bind (git_guarded (elsewhere_of_head (by simp))) fun behind => ?_
    split
    · trivial
    · refine emits_bind (git_guarded (elsewhere_of_head (by simp))) fun merged => ?_
      split
      · exact emits_bind (git_guarded (elsewhere_of_head (by simp))) fun _ => trivial
      · trivial

theorem commitChange_guarded (job : Job) : (commitChange job).Emits (Harmless deps issue) := by
  unfold commitChange
  refine emits_bind ?_ fun committed => ?_
  · unfold commitAll
    refine emits_bind (expect_guarded (elsewhere_of_head (by simp))) fun _ => ?_
    refine emits_bind (git_guarded elsewhere_staged) fun staged => ?_
    split
    · trivial
    · exact emits_bind (expect_guarded (elsewhere_of_head (by simp))) fun _ => trivial
  · split
    · trivial
    · unfold hasCommitsBeyond
      exact emits_bind (expect_guarded (elsewhere_of_head (by simp))) fun _ => trivial

theorem pushBranch_guarded (cwd remote branch : Text) :
    (pushBranch cwd remote branch).Emits (Harmless deps issue) := by
  unfold pushBranch
  split
  · trivial
  · exact git_guarded (elsewhere_of_head (by simp))

end Guarded

/-! ### The parts of `workIssue` -/

section Parts

variable [Host] [Unicode] {job : Job} {opened : Bool} {w : Labelled} {draft : Draft}

/-- The run of this job. -/
abbrev JobLeaves {α : Type} (job : Job) (p : Action α) (w : Labelled)
    (post : α → Labelled → Prop) : Prop :=
  Leaves job.deps job.issue p w post

/-- The claim's label is gone, and nothing has gone wrong. -/
structure Unclaimed (opened : Bool) (w : Labelled) : Prop where
  begun : w.begun = true
  gone : inProgressLabel ∉ w.labels
  same : w.opened = opened
  sound : w.stranded = false

theorem removeLabel_leaves {label : Text} (h : Working opened w) :
    JobLeaves job (removeLabel job.number label) w fun _ w' => w' = w.unlabel label true := by
  refine ensures_call trivial fun answer w' hw => ?_
  have hstep : w' = (w.unlabel label (succeeded answer)).note (!succeeded answer) := by
    rw [hw]
    simp [labelStep, Labelled.moved, Strands, Job.number]
  subst hstep
  refine ensures_raise (fun a ha => ?_) fun e he => ?_
  · subst ha
    exact note_false _
  · subst he
    have hstuck : Stuck (w.note true) := h.note (true)
    exact hstuck.left

theorem release_leaves (h : Working opened w) :
    JobLeaves job (removeLabel job.number inProgressLabel) w fun _ w' => Unclaimed opened w' := by
  refine (removeLabel_leaves h).weaken fun _ w' hw => ?_
  subst hw
  exact ⟨h.begun, by simp [Labelled.unlabel], h.same, h.sound⟩

theorem unready_leaves (h : Working opened w) :
    JobLeaves job (removeLabel job.number readyLabel) w fun _ w' => Working opened w' := by
  refine (removeLabel_leaves h).weaken fun _ w' hw => ?_
  subst hw
  exact ⟨h.begun, by simp [Labelled.unlabel, inProgressLabel_ne, h.carried], h.same, h.sound⟩

/-- The last label of the run, in its two forms. -/
theorem verdict_leaves {label : Text} (h : Unclaimed opened w)
    (hlabel : label = if opened then reviewLabel else blockedLabel) :
    JobLeaves job (addLabels job.number [label]) w
      fun _ w' => Left w' ∧ w'.stranded = false ∧ w'.Settled := by
  refine ensures_call trivial fun answer w' hw => ?_
  have hother : label ≠ inProgressLabel := by
    rw [hlabel]
    cases opened <;> simp [reviewLabel, blockedLabel, inProgressLabel]
  have hstep : w' = (w.label [label] (succeeded answer)).note
      (!succeeded answer && !decide (label ∈ w.labels)) := by
    rw [hw]
    simp [labelStep, Labelled.moved, Strands, Job.number]
  subst hstep
  refine ensures_raise (fun a ha => ?_) fun e he => ?_
  · subst ha
    have hsettled : (w.label [label] true).Settled := by
      refine ⟨?_, ?_⟩
      · simp [Labelled.label, h.gone, hother.symm]
      · simp [Labelled.label, h.same, ← hlabel]
    have hsound : (w.label [label] true).stranded = false := by simp [Labelled.label, h.sound]
    have hnote : (w.label [label] (succeeded (.ok a : Except Text Unit))).note
        (!succeeded (.ok a : Except Text Unit) && !decide (label ∈ w.labels)) =
          w.label [label] true := by
      simp [succeeded]
    rw [hnote]
    exact ⟨fun _ => iff_of_true hsettled hsound, hsound, hsettled⟩
  · subst he
    intro _
    by_cases hcarried : label ∈ w.labels
    · refine iff_of_true ⟨?_, ?_⟩ ?_
      · simpa [Labelled.label, Labelled.note, succeeded] using h.gone
      · simpa [Labelled.label, Labelled.note, succeeded, h.same, ← hlabel] using hcarried
      · simp [Labelled.label, Labelled.note, succeeded, h.sound, hcarried]
    · refine iff_of_false (fun hsettled => hcarried ?_) ?_
      · have hlast := hsettled.2
        simpa [Labelled.label, Labelled.note, succeeded, h.same, ← hlabel] using hlast
      · simp [Labelled.label, Labelled.note, succeeded, h.begun, hcarried]

theorem fail_leaves {detail : Text} (h : Working false w) :
    JobLeaves job (fail job draft detail) w fun _ w' => Left w' := by
  unfold fail
  refine ensures_bind ((save_leaves h).weaken fun draft w h => ?_)
  refine ensures_bind ((logLine_leaves h).weaken fun _ w h => ?_)
  refine ensures_bind ((release_leaves h).weaken fun _ w h => ?_)
  refine ensures_bind ((verdict_leaves h rfl).weaken fun _ w h => ?_)
  -- The comment may fail: the labels are what they should be.
  refine ensures_bind (ensures_call trivial fun answer w' hw => ?_)
  have hsame : w' = w := hw.trans (note_false w)
  subst hsame
  exact ensures_raise (fun _ _ => ensures_ret h.1) fun _ _ => h.1

theorem codingPass_leaves {round : ℕ} {lessons : Lessons} (h : Working opened w) :
    JobLeaves job (codingPass job round draft lessons) w fun _ w' => Working opened w' := by
  unfold codingPass
  refine ask_bind (harmless_of_note fun _ _ => rfl) h fun _ w h => ?_
  refine ensures_bind ((strict (.implement _) id h fun _ => rfl).weaken fun coded w h => ?_)
  refine ensures_bind ((logArtifact_leaves h).weaken fun _ w h => ?_)
  refine ask_bind (harmless_of_note fun _ _ => rfl) h fun at_ w h => ?_
  exact ensures_bind ((save_leaves h).weaken fun draft w h => ensures_ret h)

theorem commitPass_leaves (h : Working opened w) :
    JobLeaves job (commitPass job) w fun _ w' => Working opened w' := by
  unfold commitPass
  refine guarded_bind (commitChange_guarded job) h fun result w h => ?_
  split
  · exact ensures_ret h
  · exact ensures_ret h
  · exact ensures_ret h

theorem changedFiles_leaves (h : Working opened w) :
    JobLeaves job (changedFiles job.worktree job.deps.base) w fun _ w' => Working opened w' := by
  unfold changedFiles
  refine ensures_bind (ensures_bind (ensures_call trivial fun answer w' hw => ?_))
  have hother : changedFilesArgs job.deps.base ≠ diffArgs job.deps.base := by
    simp [changedFilesArgs, diffArgs]
  refine ensures_raise (fun result hresult => ?_) fun e he => ?_
  · subst hresult
    have hstep : w' = w.note (decide (result.code ≠ 0)) := by
      rw [hw]
      simp [labelStep, Labelled.moved, Strands, hother]
    subst hstep
    have hnote := h.note (decide (result.code ≠ 0))
    split
    · rename_i hcode
      have hstuck : Stuck (w.note (decide (result.code ≠ 0))) := by simpa [hcode] using hnote
      exact ensures_throw hstuck.left
    · rename_i hcode
      exact ensures_ret (ensures_ret (by simpa [hcode] using hnote))
  · subst he
    have hstep : w' = w.note true := by
      rw [hw]
      simp [labelStep, Labelled.moved, Strands, hother]
    subst hstep
    have hstuck : Stuck (w.note true) := h.note (true)
    exact hstuck.left

theorem rawDiff_leaves (h : Working opened w) :
    JobLeaves job (git job.worktree (diffArgs job.deps.base)) w
      fun result w' => Working opened w' ∧ w'.rawDiff = result.stdout := by
  have hother : diffArgs job.deps.base ≠ changedFilesArgs job.deps.base := by
    simp [changedFilesArgs, diffArgs]
  refine ensures_call trivial fun answer w' hw => ensures_raise (fun result hresult => ?_)
    fun e he => ?_
  · subst hresult
    have hstep : w' = { w with rawDiff := result.stdout } := by
      rw [hw]
      simp [labelStep, Labelled.moved, Strands, hother]
    subst hstep
    exact ⟨⟨h.begun, h.carried, h.same, h.sound⟩, rfl⟩
  · subst he
    have hstep : w' = w.note true := by
      rw [hw]
      simp [labelStep, Labelled.moved, Strands, hother]
    subst hstep
    have hstuck : Stuck (w.note true) := h.note (true)
    exact hstuck.left

/-- The policy file is read, and the classification cannot fail on what is in it, or will. -/
theorem proposedPolicy_leaves (h : Working opened w) :
    JobLeaves job (proposedPolicy job.worktree job.deps.policy) w fun head w' =>
      if (classifyRiskMonotonic ⟨parseUnifiedDiff w.rawDiff, job.issue.labels, job.deps.policy,
        head⟩).isNone then Stuck w' else Working opened w' := by
  unfold proposedPolicy
  refine ensures_bind (ensures_attempt (ensures_call trivial fun answer w' hw => ?_))
  have hnote := h.note ((classifyRiskMonotonic ⟨parseUnifiedDiff w.rawDiff,
    job.issue.labels, job.deps.policy, headPolicyOf answer job.deps.policy⟩).isNone)
  rw [hw]
  cases answer with
  | error e => exact ensures_throw (ensures_ret hnote)
  | ok text => exact ensures_ret (ensures_ret hnote)

theorem classifyPass_leaves (h : Working opened w) :
    JobLeaves job (classifyPass job draft) w fun _ w' => Working opened w' := by
  unfold classifyPass
  refine ensures_bind ((changedFiles_leaves h).weaken fun files w h => ?_)
  refine ensures_bind ((rawDiff_leaves h).weaken fun rawDiff w hraw => ?_)
  obtain ⟨h, hraw⟩ := hraw
  refine ensures_bind ((proposedPolicy_leaves h).weaken fun headPolicy w hhead => ?_)
  rw [hraw] at hhead
  split
  · rename_i hnone
    rw [hnone] at hhead
    have hstuck : Stuck w := hhead
    exact ensures_throw hstuck.left
  · rename_i risk hrisk
    rw [hrisk] at hhead
    exact ensures_bind ((logArtifact_leaves hhead).weaken fun _ w h => ensures_ret h)

theorem verifyPass_leaves {round : ℕ} {change : Change} (h : Working opened w) :
    JobLeaves job (verifyPass job round draft change) w fun _ w' => Working opened w' := by
  unfold verifyPass
  refine ensures_bind ((strict (.verify _) id h fun _ => rfl).weaken fun verified w h => ?_)
  refine ensures_bind ((logArtifact_leaves h).weaken fun _ w h => ?_)
  refine ask_bind (harmless_of_note fun _ _ => rfl) h fun at_ w h => ?_
  exact ensures_bind ((save_leaves h).weaken fun draft w h => ensures_ret h)

theorem reviewAttempts_leaves (reviewer index : ℕ) (task : ReviewTask) (remaining : ℕ) :
    ∀ (attempt : ℕ) (gathered : GatheredReviews) (w : Labelled), Working opened w →
      JobLeaves job (reviewAttempts reviewer index task remaining attempt gathered) w
        fun _ w' => Working opened w' := by
  induction remaining with
  | zero => exact fun _ _ _ h => ensures_ret h
  | succ remaining ih =>
    intro attempt gathered w h
    unfold reviewAttempts
    refine ask_bind (harmless_of_note fun _ _ => rfl) h fun _ w h => ?_
    refine ensures_bind ((strict (.review _ _) id h fun _ => rfl).weaken fun outcome w h => ?_)
    split
    · exact ensures_ret h
    · exact ih _ _ w h

theorem gatherFrom_leaves (task : ReviewTask) (remaining : ℕ) :
    ∀ (index : ℕ) (gathered : GatheredReviews) (w : Labelled), Working opened w →
      JobLeaves job (gatherFrom job.deps task remaining index gathered) w
        fun _ w' => Working opened w' := by
  induction remaining with
  | zero => exact fun _ _ _ h => ensures_ret h
  | succ remaining ih =>
    intro index gathered w h
    unfold gatherFrom
    split
    · exact ih _ _ w h
    · exact ensures_bind ((reviewAttempts_leaves _ _ _ _ _ _ w h).weaken
        fun gathered w h => ih _ _ w h)

theorem reviewPass_leaves {round required : ℕ} {change : Change} (h : Working opened w) :
    JobLeaves job (reviewPass job round draft change required) w fun _ w' => Working opened w' := by
  unfold reviewPass gatherReviews
  refine ensures_bind ((gatherFrom_leaves _ _ _ _ w h).weaken fun reviews w h => ?_)
  refine ensures_bind ((logArtifact_leaves h).weaken fun _ w h => ?_)
  refine ask_bind (harmless_of_note fun _ _ => rfl) h fun at_ w h => ?_
  exact ensures_bind ((save_leaves h).weaken fun draft w h => ensures_ret h)

theorem reviewRound_leaves {round : ℕ} {change : Change} {verification : VerificationOutcome}
    (h : Working opened w) :
    JobLeaves job (reviewRound job round draft change verification) w
      fun _ w' => Working opened w' := by
  unfold reviewRound
  refine ensures_bind ((reviewPass_leaves h).weaken fun reviewed w h => ?_)
  dsimp only
  split
  · exact ensures_ret h
  · split
    · exact ensures_ret h
    · split
      · exact ensures_ret h
      · exact ensures_ret h
    · exact ensures_ret h

theorem verifyRound_leaves {round : ℕ} (h : Working opened w) :
    JobLeaves job (verifyRound job round draft) w fun _ w' => Working opened w' := by
  unfold verifyRound
  refine ensures_bind ((classifyPass_leaves h).weaken fun classified w h => ?_)
  refine ensures_bind ((verifyPass_leaves h).weaken fun verified w h => ?_)
  dsimp only
  split
  · exact ensures_ret h
  · split
    · split
      · exact ensures_ret h
      · exact ensures_ret h
    · exact reviewRound_leaves h

theorem runRound_leaves {round : ℕ} {lessons : Lessons} (h : Working opened w) :
    JobLeaves job (runRound job round draft lessons) w fun _ w' => Working opened w' := by
  unfold runRound
  refine ensures_bind ((codingPass_leaves h).weaken fun coded w h => ?_)
  dsimp only
  split
  · exact ensures_ret h
  · refine ensures_bind ((commitPass_leaves h).weaken fun ending w h => ?_)
    split
    · exact ensures_ret h
    · exact verifyRound_leaves h

/-- However many rounds it takes. -/
theorem runRounds_leaves (remaining : ℕ) :
    ∀ (round : ℕ) (draft : Draft) (lessons : Lessons) (w : Labelled), Working opened w →
      JobLeaves job (runRounds job remaining round draft lessons) w
        fun _ w' => Working opened w' := by
  induction remaining with
  | zero => exact fun _ _ _ _ h => ensures_ret h
  | succ remaining ih =>
    intro round draft lessons w h
    unfold runRounds
    refine ensures_bind ((runRound_leaves h).weaken fun ending w h => ?_)
    split
    · exact ih _ _ _ w h
    · exact ensures_ret h

/-- A pull request is open. -/
theorem openPullRequest_leaves {settled : Settled} (h : Working false w) :
    JobLeaves job (openPullRequest job settled) w fun _ w' => Working true w' := by
  unfold openPullRequest
  refine ensures_bind (ensures_call trivial fun answer w' hw => ?_)
  refine ensures_raise (fun existing hexisting => ?_) fun e he => ?_
  · subst hexisting
    have hstep : w' = w.opens (existing.any fun pr =>
        Unicode.toUpperCase pr.state = lit "OPEN") := by
      rw [hw]
      cases existing <;> simp [labelStep, Labelled.moved, Strands, succeeded, Labelled.opens]
    subst hstep
    split
    · rename_i pr hpr
      obtain ⟨rfl, hopen⟩ := Option.filter_eq_some_iff.mp hpr
      refine ensures_ret ⟨h.begun, h.carried, ?_, h.sound⟩
      simpa [Labelled.opens, h.same] using hopen
    · rename_i hnone
      have hclosed : existing.any (fun pr => Unicode.toUpperCase pr.state = lit "OPEN") =
          false := by
        cases existing with
        | none => rfl
        | some pr => simpa [Option.filter_eq_none_iff] using hnone
      rw [hclosed]
      have hworking : Working false (w.opens false) :=
        ⟨h.begun, h.carried, by simp [Labelled.opens, h.same], h.sound⟩
      refine ensures_bind (ensures_call trivial fun answer w' hw => ?_)
      have hstep : w' = ((w.opens false).opens (succeeded answer)).note (!succeeded answer) := hw
      subst hstep
      refine ensures_raise (fun number hnumber => ensures_ret ?_) fun e he => ?_
      · subst hnumber
        exact ⟨h.begun, h.carried, by simp [Labelled.opens, Labelled.note, succeeded],
          by simp [Labelled.opens, Labelled.note, succeeded, h.sound]⟩
      · subst he
        have hstuck : Stuck (((w.opens false).opens false).note true) :=
          ⟨h.carried, by simp [Labelled.opens, Labelled.note, h.begun]⟩
        exact hstuck.left
  · subst he
    have hstep : w' = w.note true := hw
    subst hstep
    have hstuck : Stuck (w.note true) := h.note (true)
    exact hstuck.left

theorem handOver_leaves {settled : Settled} (h : Working false w) :
    JobLeaves job (handOver job draft settled) w fun _ w' => Left w' := by
  unfold handOver
  refine ensures_bind ((openPullRequest_leaves h).weaken fun opened w h => ?_)
  dsimp only
  refine ask_bind (harmless_of_note fun _ _ => rfl) h fun at_ w h => ?_
  refine ensures_bind ((save_leaves h).weaken fun _ w h => ?_)
  refine ensures_bind ((logLine_leaves h).weaken fun _ w h => ?_)
  refine ensures_bind ((release_leaves h).weaken fun _ w h => ?_)
  refine ensures_bind ((verdict_leaves h rfl).weaken fun _ w h => ?_)
  refine ensures_bind (ensures_attempt (ensures_call trivial fun answer w' hw => ?_))
  have hsame : w' = w := hw.trans (note_false w)
  subst hsame
  exact ensures_raise (fun _ _ => ensures_ret h.1) fun _ _ => ensures_ret h.1

theorem publish_leaves {settled : Settled} (h : Working false w) :
    JobLeaves job (publish job draft settled) w fun _ w' => Left w' := by
  unfold publish
  refine guarded_bind (pushBranch_guarded _ _ _) h fun pushed w h => ?_
  split
  · exact fail_leaves h
  · split
    · exact fail_leaves h
    · exact handOver_leaves h

theorem implementIssue_leaves (h : Working false w) :
    JobLeaves job (implementIssue job draft) w fun _ w' => Left w' := by
  unfold implementIssue
  refine ensures_bind ((strict (.install _) id h fun _ => rfl).weaken fun installed w h => ?_)
  split
  · exact fail_leaves h
  · split
    · exact fail_leaves h
    · refine ensures_bind ((runRounds_leaves _ _ _ _ w h).weaken fun ending w h => ?_)
      split
      · exact publish_leaves h
      · exact fail_leaves h
      · exact fail_leaves h

/-- Nothing has happened to the issue yet. -/
structure Untouched (w : Labelled) : Prop where
  begun : w.begun = false
  same : w.opened = false
  sound : w.stranded = false

omit [Host] [Unicode] in
theorem Untouched.note (h : Untouched w) (stranded : Bool) : w.note stranded = w := by
  obtain ⟨labels, begun, opened, sound, rawDiff⟩ := w
  obtain rfl : begun = false := h.begun
  simp [Labelled.note]

/-- Before the claim, nothing is promised. -/
theorem untouched_call (op : Op) {α : Type} (answerOf : op.Answer → Except Text α) (h : Untouched w)
    (hstep : ∀ answer, ∃ stranded, labelStep job.deps job.issue w ⟨op, answer⟩ = w.note stranded) :
    JobLeaves job (.call op fun answer => raise (answerOf answer)) w fun _ w' => Untouched w' := by
  refine ensures_call trivial fun answer w' hw => ?_
  obtain ⟨stranded, hstep⟩ := hstep answer
  rw [Folds, hstep, h.note] at hw
  subst hw
  exact ensures_raise (fun _ _ => h) fun _ _ => left_of_unbegun h.begun

theorem begin_leaves (h : Untouched w) :
    JobLeaves job (addLabels job.number [inProgressLabel]) w fun _ w' => Working false w' := by
  refine ensures_call trivial fun answer w' hw => ?_
  have hstep : w' = (w.label [inProgressLabel] (succeeded answer)).note
      (!succeeded answer && !decide (inProgressLabel ∈ w.labels)) := by
    rw [hw]
    simp [labelStep, Labelled.moved, Strands, Job.number]
  subst hstep
  refine ensures_raise (fun _ hok => ?_) fun e he => ?_
  · subst hok
    refine ⟨?_, ?_, ?_, ?_⟩
    · simp [Labelled.note, Labelled.label, succeeded]
    · simp [Labelled.note, Labelled.label, succeeded]
    · simp [Labelled.note, Labelled.label, succeeded, h.same]
    · simp [Labelled.note, Labelled.label, succeeded, h.sound]
  · subst he
    refine left_of_unbegun ?_
    simp [Labelled.note, Labelled.label, succeeded, h.begun]

theorem recordFor_leaves {journal : Journal} (h : Working opened w) :
    JobLeaves job (recordFor job journal) w fun _ w' => Working opened w' := by
  unfold recordFor
  split
  · exact ensures_ret h
  · refine ask_bind (harmless_of_note fun _ _ => rfl) h fun startedAt w h => ?_
    refine ask_bind (harmless_of_note fun _ _ => rfl) h fun updatedAt w h => ?_
    exact ensures_ret h

theorem claim_leaves (h : Untouched w) :
    JobLeaves job (claim job) w fun _ w' => Working false w' := by
  unfold claim
  refine ensures_bind ((untouched_call (.createLog _) id h fun _ => ⟨false, rfl⟩).weaken
    fun _ w h => ?_)
  refine ensures_bind ((untouched_call (.logLine _) id h fun _ => ⟨_, rfl⟩).weaken
    fun _ w h => ?_)
  refine ensures_bind ((begin_leaves h).weaken fun _ w h => ?_)
  refine ensures_bind ((unready_leaves h).weaken fun _ w h => ?_)
  refine ask_bind (harmless_of_note fun _ _ => rfl) h fun journal w h => ?_
  refine ensures_bind ((recordFor_leaves h).weaken fun record w h => ?_)
  exact save_leaves h

theorem workJob_leaves (h : Untouched w) : JobLeaves job (workJob job) w fun _ w' => Left w' := by
  unfold workJob
  refine ensures_bind ((claim_leaves h).weaken fun draft w h => ?_)
  refine guarded_bind (prepare_guarded job) h fun prepared w h => ?_
  split
  · exact fail_leaves h
  · exact implementIssue_leaves h

end Parts

/-! ### Every run -/

section Runs

variable [Host] [Unicode]

/-- **The labels an issue is left with.**  When a run of `workIssue` that has claimed the issue
comes to an end, by returning or by throwing, the issue does not carry the label of a run at work,
and carries the one for review if a pull request was opened and the one for a person otherwise,
exactly when every failure since the claim met a handler. -/
theorem labels_left_iff (deps : RunnerDeps) (issue : IssueSummary) (options : WorkOptions)
    (labels : List Text) (trace : List RunnerEvent) (outcome : Outcome Text IssueOutcome)
    (hrun : Run (workIssue deps issue options) trace outcome) (hended : outcome.ended = true)
    (hbegun : (labelsAfter deps issue labels trace).begun = true) :
    (labelsAfter deps issue labels trace).Settled ↔
      (labelsAfter deps issue labels trace).stranded = false := by
  have hstart : Untouched ⟨labels, false, false, false, []⟩ := ⟨rfl, rfl, rfl⟩
  have hwork : JobLeaves (newJob deps issue options) (workJob (newJob deps issue options))
      ⟨labels, false, false, false, []⟩ fun _ w' => Left w' := workJob_leaves hstart
  have hmeets := hwork trace outcome _ hrun (steps_folds _ trace _)
  cases outcome with
  | returned a => exact hmeets hbegun
  | threw e => exact hmeets hbegun
  | interrupted => exact absurd hended (by simp [Outcome.ended])

end Runs

/-! ### A label that cannot be removed -/

/-- GitHub does not answer when the label that offers the issue is removed. -/
def unanswered : Script := fun _ op =>
  match op with
  | .removeLabel _ label => if label = readyLabel then some (.error (lit "HTTP 502"))
    else some (.ok ())
  | op => some (calm op)

/-- Issue 1 is taken up, in a rehearsed world. -/
def rehearsedWork (script : Script) : List RunnerEvent × Outcome Text IssueOutcome × Journal :=
  play (rehearse script) (@workIssue asciiHost asciiUnicode sampleDeps
    (@toSummary asciiHost (sampleIssue 1)) ⟨0, none⟩) emptyJournal

theorem rehearsedWork_run (script : Script) :
    Run (@workIssue asciiHost asciiUnicode sampleDeps (@toSummary asciiHost (sampleIssue 1))
      ⟨0, none⟩)
      (rehearsedWork script).1 (rehearsedWork script).2.1 :=
  run_play _ _ _

/-- The issue after such a run. -/
def rehearsedLabels (script : Script) : Labelled :=
  @labelsAfter asciiHost asciiUnicode sampleDeps (@toSummary asciiHost (sampleIssue 1)) [readyLabel]
    (rehearsedWork script).1

/-- The push cannot be made. -/
def refused : Script := fun _ op =>
  match op with
  | .git cwd args =>
      if args.head? = some (lit "push") then some (.error (lit "ssh: connection refused"))
      else some (calm (.git cwd args))
  | op => some (calm op)

theorem refused_work :
    (rehearsedWork refused).2.1.ended = true ∧ (rehearsedLabels refused).begun = true ∧
      (rehearsedLabels refused).stranded = false ∧
      (rehearsedLabels refused).labels = [blockedLabel] := by
  decide +kernel

/-- The failure meets its handler, and the issue is left to a person. -/
theorem labels_left_sample :
    (rehearsedLabels refused).labels = [blockedLabel] ∧ (rehearsedLabels refused).Settled := by
  obtain ⟨hended, hbegun, hmet, hlabels⟩ := refused_work
  exact ⟨hlabels, (@labels_left_iff asciiHost asciiUnicode sampleDeps _ _ [readyLabel] _ _
    (rehearsedWork_run refused) hended hbegun).mpr hmet⟩

/-- The run throws right after its first label, and the issue keeps it. -/
theorem label_left_behind :
    ∃ trace outcome, Run (@workIssue asciiHost asciiUnicode sampleDeps
        (@toSummary asciiHost (sampleIssue 1)) ⟨0, none⟩) trace outcome ∧ outcome.ended = true ∧
      (@labelsAfter asciiHost asciiUnicode sampleDeps (@toSummary asciiHost (sampleIssue 1))
        [readyLabel] trace).begun = true ∧
      ¬ (@labelsAfter asciiHost asciiUnicode sampleDeps (@toSummary asciiHost (sampleIssue 1))
        [readyLabel] trace).Settled :=
  ⟨_, _, rehearsedWork_run unanswered, by decide +kernel⟩

end Newsdeck.Runner

import Newsdeck.Runner.Footprint
import Newsdeck.Runner.Refs
import Newsdeck.Runner.Rehearsal

/-!
# What a pushed commit has been through

A run of `workIssue` is watched from outside, by the words of the commands it gives: which diff was
taken last and of which commit, what has been done about it since, and which commits were put where.
 The agent, the installer and git may move branches and `HEAD`; verification and reviews make no
commits of their own.

* `Inspection`, `Watch`, `observe` — what is watched;
* `Approved` — what a push must have been through;
* `workIssue_accounted` — a run publishes nothing else.
-/

namespace Newsdeck.Runner

open Ecma Loop Effects Effects.Prog

/-! ### The watch -/

/-- What has been done in a round since its diff was taken. -/
structure Inspection where
  /-- What the diff was taken against. -/
  base : Text
  /-- The commit the diff was taken of. -/
  commit : Option Commit
  /-- What the names meant at the time. -/
  refs : Refs
  /-- How `git diff` exited. -/
  code : ℕ
  /-- What it printed. -/
  diff : Text
  /-- The policy file of the worktree, if it could be read. -/
  policyFile : Option Text
  /-- The last verification, and what it was asked. -/
  verified : Option (VerifyOptions × VerificationOutcome)
  /-- The usable reviews of this diff. -/
  reviews : List ReviewResult

def Inspection.reviewed (inspection : Inspection) (task : ReviewTask) (result : ReviewResult) :
    Inspection :=
  if task.diff = inspection.diff then
    { inspection with reviews := inspection.reviews ++ [result] }
  else inspection

structure Push where
  /-- What was to be put where; `none` for a push that cannot be read. -/
  target : Option PushTarget
  inspection : Option Inspection
  landed : Bool

/-- A pull request that was asked for. -/
structure Request where
  head : Text
  base : Text
  inspection : Option Inspection

structure Watch where
  refs : Refs
  inspection : Option Inspection
  /-- The pushes that were tried. -/
  pushes : List Push
  requests : List Request

/-- The push came to a good end. -/
def landed : Except Text RunResult → Bool
  | .ok result => result.code = 0
  | .error _ => false

/-- A diff was taken. -/
def Watch.diffed (w : Watch) (cwd base revision : Text) (result : RunResult) : Inspection :=
  ⟨base, w.refs.resolve cwd revision, w.refs, result.code, result.stdout, none, none, []⟩

/-- What an event adds to the watch. -/
def observe (w : Watch) (event : RunnerEvent) : Watch :=
  match event with
  | ⟨.git cwd args, answer⟩ =>
      if args.head? = some (lit "push") then
        { w with pushes := w.pushes ++ [⟨pushTarget w.refs cwd args, w.inspection, landed answer⟩] }
      else
        match diffRange args, answer with
        | some (base, revision), .ok result =>
            { w with inspection := some (w.diffed cwd base revision result) }
        | _, _ => w
  -- Every round begins with the agent, and inspects anew.
  | ⟨.implement _, _⟩ => { w with inspection := none }
  | ⟨.readPolicyFile _, answer⟩ =>
      { w with inspection := w.inspection.map fun inspection =>
          { inspection with policyFile := answer.toOption } }
  | ⟨.verify options, answer⟩ =>
      match answer with
      | .ok outcome =>
          { w with inspection := w.inspection.map fun inspection =>
              { inspection with verified := some (options, outcome) } }
      | .error _ => w
  | ⟨.review _ task, answer⟩ =>
      match answer with
      | .ok (.ok result) =>
          { w with inspection := w.inspection.map fun inspection =>
              inspection.reviewed task result }
      | _ => w
  | ⟨.createPullRequest input, _⟩ =>
      { w with requests := w.requests ++ [⟨input.head, input.base, w.inspection⟩] }
  | _ => w

/-- The operations after which branches and `HEAD` may be elsewhere. -/
def movesRefs : Op → Bool
  | .implement _ => true
  | .install _ => true
  | .git _ args => args.head? ≠ some (lit "push") && args.head? ≠ some (lit "diff")
  | _ => false

/-- The world under watch. -/
def watchStep (w : Watch) (event : RunnerEvent) (w' : Watch) : Prop :=
  w' = { observe w event with refs := w'.refs } ∧ (movesRefs event.op = false → w'.refs = w.refs)

/-- The run has just begun. -/
def unwatched (refs : Refs) : Watch := ⟨refs, none, [], []⟩

section Approval

variable [Host]

/-- The risk of the diff, under the policy of the base branch and the one the change proposes. -/
def Inspection.risk (job : Job) (inspection : Inspection) : Option RiskAssessment :=
  classifyRiskMonotonic ⟨parseUnifiedDiff inspection.diff, job.issue.labels, job.deps.policy,
    inspection.policyFile.bind fun text => proposedPolicyOf text job.deps.policy⟩

/-- Verification for the classified risk went well, with nothing unavailable. -/
def Verified (job : Job) (risk : RiskLevel) (inspection : Inspection) : Prop :=
  ∃ files outcome,
    inspection.verified = some (⟨job.worktree, risk, job.deps.policy, files⟩, outcome) ∧
    outcome.ok = true ∧ outcome.unavailable = []

/-- What was pushed was classified, verified, reviewed and approved of. -/
structure Approved (job : Job) (target : PushTarget) (inspection : Inspection) : Prop where
  remote : target.remote = job.deps.remote
  destination : target.destination = job.branch
  /-- The branch has not moved since the diff was taken. -/
  commit : target.commit = inspection.refs.named job.branch
  /-- The diff is the one from the base to `HEAD`. -/
  range : inspection.base = job.deps.base ∧
    inspection.commit = inspection.refs.resolve job.worktree (lit "HEAD")
  checked : ∃ risk, inspection.risk job = some risk ∧ Verified job risk.risk inspection ∧
    reviewersForRisk job.deps.policy risk.risk ≤ inspection.reviews.length
  approved : (aggregateReviews ⟨inspection.reviews, inspection.reviews.length,
    job.deps.policy.blockingSeverity⟩).status = .approve

/-- Git printed the diff of the commit. -/
def Inspection.Shows (inspection : Inspection) (commit : Option Commit) : Prop :=
  inspection.code = 0 ∧ inspection.commit = commit

/-- Where `git diff` exits well with `HEAD` on the branch, the commit that is pushed is the one
whose diff was classified. -/
theorem Approved.shows {job : Job} {target : PushTarget} {inspection : Inspection}
    (h : Approved job target inspection) (hcode : inspection.code = 0)
    (hhead : inspection.refs.heads job.worktree = .branch job.branch) :
    inspection.Shows target.commit :=
  ⟨hcode, by rw [h.range.2, resolve_head hhead, h.commit]⟩

/-- The push was of a commit that was approved of, and where `git diff` exited well with `HEAD` on
the branch, of the commit whose diff was. -/
structure Sanctioned (job : Job) (push : Push) (inspection : Inspection) : Prop where
  inspected : push.inspection = some inspection
  pushed : ∃ target, push.target = some target ∧ Approved job target inspection ∧
    (inspection.code = 0 → inspection.refs.heads job.worktree = .branch job.branch →
      inspection.Shows target.commit)

/-- Every push was sanctioned, and pull requests of the branch were asked for after one that
landed. -/
structure Accounted (job : Job) (w : Watch) : Prop where
  pushes : ∀ push ∈ w.pushes, ∃ inspection, Sanctioned job push inspection
  requests : ∀ request ∈ w.requests, request.head = job.branch ∧
    request.base = job.deps.defaultBranch ∧
    ∃ push ∈ w.pushes, push.landed = true ∧ request.inspection = push.inspection

end Approval

/-- Nothing was published. -/
structure Unpublished (w : Watch) : Prop where
  pushes : w.pushes = []
  requests : w.requests = []

/-! ### Rules -/

section Rules

variable {job : Job} {w w' : Watch} {op : Op} {answer : op.Answer}

/-- The operation is not under watch. -/
def Stays (op : Op) : Prop := movesRefs op = false ∧ ∀ w answer, observe w ⟨op, answer⟩ = w

/-- The operation publishes nothing. -/
def Withholds (op : Op) : Prop :=
  ∀ w answer, (observe w ⟨op, answer⟩).pushes = w.pushes ∧
    (observe w ⟨op, answer⟩).requests = w.requests

theorem watchStep_still (hop : movesRefs op = false) (h : watchStep w ⟨op, answer⟩ w') :
    w' = { observe w ⟨op, answer⟩ with refs := w.refs } := by
  rw [← h.2 hop]
  exact h.1

theorem watchStep_stays (hop : Stays op) (h : watchStep w ⟨op, answer⟩ w') : w' = w := by
  rw [watchStep_still hop.1 h, hop.2]

theorem withholds_of_stays (op : Op) (h : Stays op) : Withholds op := by
  intro w answer
  rw [h.2]
  exact ⟨rfl, rfl⟩

theorem withholds_of_isLocalGit (op : Op) (h : IsLocalGit op) : Withholds op := by
  obtain ⟨cwd, args, rfl, hpush⟩ := h
  intro w answer
  simp only [observe, if_neg hpush]
  split <;> exact ⟨rfl, rfl⟩

theorem unpublished_step (hop : Withholds op) (hw : Unpublished w)
    (h : watchStep w ⟨op, answer⟩ w') : Unpublished w' := by
  obtain ⟨hpushes, hrequests⟩ := hop w answer
  rw [h.1]
  exact ⟨hpushes.trans hw.pushes, hrequests.trans hw.requests⟩

variable [Host]

theorem Unpublished.accounted (h : Unpublished w) : Accounted job w := by
  refine ⟨?_, ?_⟩
  · rw [h.pushes]
    simp
  · rw [h.requests]
    simp

/-- Wherever the run ends, what it published is accounted for. -/
abbrev Watches {α : Type} (job : Job) (p : Action α) (w : Watch) (post : α → Watch → Prop) :
    Prop :=
  Ensures watchStep (Accounted job) (fun _ => Accounted job) p w post

variable {α β : Type} {p : Action α} {f : α → Action β} {post : β → Watch → Prop}

/-- A part that is not under watch. -/
theorem watches_stay_bind (hp : p.Emits Stays) (hw : Accounted job w)
    (hf : ∀ a, Watches job (f a) w post) : Watches job (p >>= f) w post := by
  have hstay : Ensures watchStep (· = w) (fun _ => (· = w)) p w fun _ => (· = w) := by
    refine ensures_emits (· = w) hp (fun op answer s s' hop hs hstep => ?_) rfl
    rw [← hs]
    exact watchStep_stays hop hstep
  refine ensures_bind (hstay.mono (fun a w' hw' => ?_) (fun _ w' hw' => ?_) fun w' hw' => ?_)
  · rw [hw']
    exact hf a
  · rw [hw']
    exact hw
  · rw [hw']
    exact hw

/-- A part that publishes nothing, where nothing was published. -/
theorem watches_withhold (hp : p.Emits Withholds) (hw : Unpublished w) :
    Watches job p w fun _ => Unpublished := by
  have hkeep : Ensures watchStep Unpublished (fun _ => Unpublished) p w fun _ => Unpublished :=
    ensures_emits Unpublished hp (fun _ _ _ _ hop hs hstep => unpublished_step hop hs hstep) hw
  exact hkeep.mono (fun _ _ h => h) (fun _ _ h => h.accounted) fun _ h => h.accounted

theorem watches_withhold_bind (hp : p.Emits Withholds) (hw : Unpublished w)
    (hf : ∀ a w', Unpublished w' → Watches job (f a) w' post) : Watches job (p >>= f) w post :=
  ensures_bind ((watches_withhold hp hw).weaken fun a w' hw' => hf a w' hw')

end Rules

/-! ### Parts that are not under watch -/

section Stays

variable {job : Job}

theorem stays_now : now.Emits Stays := ⟨⟨rfl, fun _ _ => rfl⟩, fun _ => trivial⟩

/-- One operation that is not under watch. -/
theorem stays_call {op : Op} {α : Type} {answerOf : op.Answer → Except Text α} (h : Stays op) :
    (Prog.call op fun answer => raise (answerOf answer) : Action α).Emits Stays :=
  ⟨h, fun answer => emits_raise (answerOf answer)⟩

theorem stays_save (draft : Draft) : (save draft).Emits Stays := by
  unfold save
  exact emits_bind (stays_call ⟨rfl, fun _ _ => rfl⟩) fun _ => trivial

theorem stays_logArtifact (name : Text) (value : Artifact) :
    (logArtifact name value).Emits Stays :=
  stays_call ⟨rfl, fun _ _ => rfl⟩

theorem stays_claim : (claim job).Emits Stays := by
  unfold claim recordFor
  refine emits_bind (stays_call ⟨rfl, fun _ _ => rfl⟩) fun _ => ?_
  refine emits_bind (stays_call ⟨rfl, fun _ _ => rfl⟩) fun _ => ?_
  refine emits_bind (stays_call ⟨rfl, fun _ _ => rfl⟩) fun _ => ?_
  refine emits_bind (stays_call ⟨rfl, fun _ _ => rfl⟩) fun _ => ?_
  refine emits_bind ⟨⟨rfl, fun _ _ => rfl⟩, fun _ => trivial⟩ fun journal => ?_
  refine emits_bind ?_ fun record => stays_save _
  split
  · trivial
  · exact emits_bind stays_now fun _ => emits_bind stays_now fun _ => trivial

/-- What one round does before its change is classified publishes nothing. -/
theorem withholds_codingPass (round : ℕ) (draft : Draft) (lessons : Lessons) :
    (codingPass job round draft lessons).Emits Withholds := by
  unfold codingPass
  refine emits_bind ⟨fun _ _ => ⟨rfl, rfl⟩, fun _ => trivial⟩ fun _ => ?_
  refine emits_bind ⟨fun _ _ => ⟨rfl, rfl⟩, fun answer => emits_raise answer⟩ fun coded => ?_
  refine emits_bind ((stays_logArtifact _ _).mono withholds_of_stays) fun _ => ?_
  refine emits_bind (stays_now.mono withholds_of_stays) fun at_ => ?_
  exact emits_bind ((stays_save _).mono withholds_of_stays) fun draft => trivial

end Stays

/-! ### One round -/

section Round

variable [Host] {job : Job} {w : Watch} {draft : Draft}

/-- The watch after the change was classified. -/
structure Classified (job : Job) (change : Change) (w : Watch) (inspection : Inspection) :
    Prop where
  unpublished : Unpublished w
  inspected : w.inspection = some inspection
  refs : inspection.refs = w.refs
  range : inspection.base = job.deps.base ∧
    inspection.commit = w.refs.resolve job.worktree (lit "HEAD")
  diff : inspection.diff = change.diff
  risk : inspection.risk job = some change.risk

/-- The diff is taken, and a new inspection begins. -/
theorem diff_watches (hw : Unpublished w) :
    Watches job (git job.worktree (diffArgs job.deps.base)) w fun result w' =>
      w' = { w with
        inspection := some (w.diffed job.worktree job.deps.base (lit "HEAD") result) } := by
  have hdiff : (diffArgs job.deps.base).head? ≠ some (lit "push") := by simp [diffArgs, lit]
  have hstill : movesRefs (.git job.worktree (diffArgs job.deps.base)) = false := by
    simp [movesRefs, diffArgs]
  refine ensures_call hw.accounted fun answer w' hstep => ?_
  have hnext := watchStep_still hstill hstep
  simp only [observe, if_neg hdiff, diffRange_diffArgs] at hnext
  cases answer with
  | ok result => exact ensures_ret hnext
  | error message =>
    refine ensures_throw ?_
    rw [show w' = w from hnext]
    exact hw.accounted

theorem proposedPolicy_watches {inspection : Inspection} (hw : Unpublished w)
    (hinspected : w.inspection = some inspection) :
    Watches job (proposedPolicy job.worktree job.deps.policy) w fun policy w' => ∃ text,
      policy = text.bind (fun text => proposedPolicyOf text job.deps.policy) ∧
        w' = { w with inspection := some { inspection with policyFile := text } } := by
  unfold proposedPolicy
  refine ensures_bind (ensures_attempt (ensures_call hw.accounted fun answer w' hstep => ?_))
  have hnext : w' =
      { w with inspection := some { inspection with policyFile := answer.toOption } } := by
    rw [watchStep_still rfl hstep]
    simp only [observe, hinspected, Option.map_some]
  cases answer with
  | ok text => exact ensures_ret (ensures_ret ⟨some text, rfl, hnext⟩)
  | error message => exact ensures_throw (ensures_ret ⟨none, rfl, hnext⟩)

theorem classifyPass_watches (hw : Unpublished w) :
    Watches job (classifyPass job draft) w fun result w' => ∃ inspection,
      Classified job result.2 w' inspection ∧ inspection.reviews = [] := by
  unfold classifyPass
  refine watches_withhold_bind ((changedFiles_local _ _).mono withholds_of_isLocalGit) hw
    fun files w hw => ?_
  refine ensures_bind ((diff_watches hw).weaken ?_)
  rintro rawDiff _ rfl
  set inspection := w.diffed job.worktree job.deps.base (lit "HEAD") rawDiff
  have hdiff : Unpublished { w with inspection := some inspection } := ⟨hw.pushes, hw.requests⟩
  refine ensures_bind ((proposedPolicy_watches hdiff rfl).weaken ?_)
  rintro headPolicy _ ⟨text, rfl, rfl⟩
  have hunpublished : Unpublished
      { w with inspection := some { inspection with policyFile := text } } :=
    ⟨hw.pushes, hw.requests⟩
  split
  · exact ensures_throw hunpublished.accounted
  · rename_i risk hrisk
    refine watches_stay_bind (stays_logArtifact _ _) hunpublished.accounted fun _ => ?_
    exact ensures_ret ⟨_, ⟨hunpublished, rfl, rfl, ⟨rfl, rfl⟩, rfl, hrisk⟩, rfl⟩

/-- The watch while a verified change is reviewed. -/
def Reviewing (job : Job) (change : Change)
    (verified : Option (VerifyOptions × VerificationOutcome))
    (w : Watch) (usable : List ReviewResult) : Prop :=
  ∃ inspection, Classified job change w inspection ∧ inspection.verified = verified ∧
    inspection.reviews = usable

variable {change : Change} {verified : Option (VerifyOptions × VerificationOutcome)}

theorem Reviewing.accounted {usable : List ReviewResult}
    (h : Reviewing job change verified w usable) : Accounted job w := by
  obtain ⟨inspection, hclassified, -⟩ := h
  exact hclassified.unpublished.accounted

theorem verifyPass_watches {round : ℕ} {inspection : Inspection}
    (hw : Classified job change w inspection) (hreviews : inspection.reviews = []) :
    Watches job (verifyPass job round draft change) w fun result w' => Reviewing job change
      (some (⟨job.worktree, change.risk.risk, job.deps.policy, change.files⟩, result.2)) w' [] := by
  unfold verifyPass
  refine ensures_bind (ensures_call hw.unpublished.accounted fun answer w' hstep => ?_)
  have hnext := watchStep_still rfl hstep
  cases answer with
  | error message =>
    refine ensures_throw ?_
    rw [show w' = w from hnext]
    exact hw.unpublished.accounted
  | ok verification =>
    have hverified : Reviewing job change
        (some (⟨job.worktree, change.risk.risk, job.deps.policy, change.files⟩, verification))
        w' [] := by
      rw [hnext]
      simp only [observe, hw.inspected, Option.map_some]
      exact ⟨_, ⟨⟨hw.unpublished.pushes, hw.unpublished.requests⟩, rfl, hw.refs, hw.range, hw.diff,
        hw.risk⟩,
        rfl, hreviews⟩
    refine ensures_ret ?_
    refine watches_stay_bind (stays_logArtifact _ _) hverified.accounted fun _ => ?_
    refine watches_stay_bind stays_now hverified.accounted fun at_ => ?_
    refine watches_stay_bind (stays_save _) hverified.accounted fun draft => ?_
    exact ensures_ret hverified

theorem reviewAttempts_watches {task : ReviewTask} (htask : task.diff = change.diff)
    (reviewer index remaining : ℕ) :
    ∀ (attempt : ℕ) (gathered : GatheredReviews) (w : Watch),
      Reviewing job change verified w gathered.usable →
      Watches job (reviewAttempts reviewer index task remaining attempt gathered) w
        fun g w' => Reviewing job change verified w' g.usable := by
  induction remaining with
  | zero => exact fun _ _ _ h => ensures_ret h
  | succ remaining ih =>
    intro attempt gathered w h
    unfold reviewAttempts
    refine watches_stay_bind ⟨⟨rfl, fun _ _ => rfl⟩, fun _ => trivial⟩ h.accounted fun _ => ?_
    refine ensures_bind (ensures_call h.accounted fun answer w' hstep => ?_)
    have hnext := watchStep_still rfl hstep
    cases answer with
    | error message =>
      refine ensures_throw ?_
      rw [show w' = w from hnext]
      exact h.accounted
    | ok outcome =>
      cases outcome with
      | failed reason =>
        rw [show w' = w from hnext]
        exact ensures_ret (ih _ _ w h)
      | ok result =>
        obtain ⟨inspection, hw, hverified, hreviews⟩ := h
        have hreviewed : inspection.reviewed task result =
            { inspection with reviews := inspection.reviews ++ [result] } :=
          if_pos (htask.trans hw.diff.symm)
        have hmoved : Reviewing job change verified w' (gathered.usable ++ [result]) := by
          rw [hnext]
          simp only [observe, hw.inspected, Option.map_some, hreviewed]
          exact ⟨_, ⟨⟨hw.unpublished.pushes, hw.unpublished.requests⟩, rfl, hw.refs, hw.range,
            hw.diff, hw.risk⟩, hverified, by rw [hreviews]⟩
        exact ensures_ret (ensures_ret hmoved)

theorem gatherFrom_watches {task : ReviewTask} (htask : task.diff = change.diff) (remaining : ℕ) :
    ∀ (index : ℕ) (gathered : GatheredReviews) (w : Watch),
      Reviewing job change verified w gathered.usable →
      Watches job (gatherFrom job.deps task remaining index gathered) w
        fun g w' => Reviewing job change verified w' g.usable := by
  induction remaining with
  | zero => exact fun _ _ _ h => ensures_ret h
  | succ remaining ih =>
    intro index gathered w h
    unfold gatherFrom
    split
    · exact ih _ _ w h
    · refine ensures_bind ((reviewAttempts_watches htask _ _ _ _ gathered w h).weaken ?_)
      exact fun g w' hg => ih _ g w' hg

theorem reviewPass_watches {round required : ℕ} (h : Reviewing job change verified w []) :
    Watches job (reviewPass job round draft change required) w
      fun result w' => Reviewing job change verified w' result.2.usable := by
  unfold reviewPass
  have hgather : Watches job (gatherReviews job.deps required (reviewTask job change)) w
      fun g w' => Reviewing job change verified w' g.usable :=
    gatherFrom_watches rfl _ _ ⟨[], []⟩ w h
  refine ensures_bind (hgather.weaken fun reviews w' h => ?_)
  refine watches_stay_bind (stays_logArtifact _ _) h.accounted fun _ => ?_
  refine watches_stay_bind stays_now h.accounted fun at_ => ?_
  refine watches_stay_bind (stays_save _) h.accounted fun draft => ?_
  exact ensures_ret h

/-- What the branch of the issue is at may be pushed. -/
def Job.target (job : Job) (refs : Refs) : PushTarget :=
  ⟨job.deps.remote, job.branch, refs.named job.branch⟩

/-- Nothing was published in the round, and a change that it settles on is approved. -/
structure Concluded (job : Job) (ending : RoundEnd) (w : Watch) : Prop where
  unpublished : Unpublished w
  settled : ∀ draft settled, ending = .settled draft settled → ∃ inspection,
    w.inspection = some inspection ∧ Approved job (job.target w.refs) inspection ∧
      inspection.risk job = some settled.change.risk

theorem concluded_gaveUp {detail : Text} (h : Unpublished w) :
    Concluded job (.gaveUp draft detail) w := ⟨h, fun _ _ heq => RoundEnd.noConfusion heq⟩

theorem concluded_again {lessons : Lessons} (h : Unpublished w) :
    Concluded job (.again draft lessons) w := ⟨h, fun _ _ heq => RoundEnd.noConfusion heq⟩

theorem Reviewing.unpublished {usable : List ReviewResult}
    (h : Reviewing job change verified w usable) : Unpublished w := by
  obtain ⟨inspection, hclassified, -⟩ := h
  exact hclassified.unpublished

theorem reviewRound_watches {round : ℕ} {verification : VerificationOutcome}
    (hok : verification.ok = true) (havailable : verification.unavailable = [])
    (h : Reviewing job change
      (some (⟨job.worktree, change.risk.risk, job.deps.policy, change.files⟩, verification)) w []) :
    Watches job (reviewRound job round draft change verification) w (Concluded job) := by
  unfold reviewRound
  refine ensures_bind ((reviewPass_watches h).weaken ?_)
  rintro ⟨draft, reviews⟩ w' h
  dsimp only
  split
  · exact ensures_ret (concluded_gaveUp h.unpublished)
  · rename_i hcount
    split
    · exact ensures_ret (concluded_gaveUp h.unpublished)
    · split
      · exact ensures_ret (concluded_gaveUp h.unpublished)
      · exact ensures_ret (concluded_again h.unpublished)
    · rename_i hverdict
      refine ensures_ret ⟨h.unpublished, fun _ _ heq => ?_⟩
      obtain ⟨inspection, hw, hverified, hreviews⟩ := h
      cases heq
      have hcommit : w'.refs.named job.branch = inspection.refs.named job.branch := by rw [hw.refs]
      have hrange : inspection.base = job.deps.base ∧
          inspection.commit = inspection.refs.resolve job.worktree (lit "HEAD") := by
        rw [hw.refs]
        exact hw.range
      refine ⟨inspection, hw.inspected,
        ⟨rfl, rfl, hcommit, hrange, ⟨change.risk, hw.risk, ?_, ?_⟩, ?_⟩,
        hw.risk⟩
      · exact ⟨change.files, verification, hverified, hok, havailable⟩
      · rw [hreviews]
        exact Nat.le_of_not_lt hcount
      · rw [hreviews]
        exact hverdict

theorem verifyRound_watches {round : ℕ} (hw : Unpublished w) :
    Watches job (verifyRound job round draft) w (Concluded job) := by
  unfold verifyRound
  refine ensures_bind ((classifyPass_watches hw).weaken ?_)
  rintro ⟨draft, change⟩ w' ⟨inspection, hclassified, hreviews⟩
  refine ensures_bind ((verifyPass_watches hclassified hreviews).weaken ?_)
  rintro ⟨draft, verification⟩ w' h
  dsimp only
  split
  · exact ensures_ret (concluded_gaveUp h.unpublished)
  · rename_i havailable
    split
    · split
      · exact ensures_ret (concluded_gaveUp h.unpublished)
      · exact ensures_ret (concluded_again h.unpublished)
    · rename_i hok
      exact reviewRound_watches (by simpa using hok) (by simpa using havailable) h

theorem runRound_watches {round : ℕ} {lessons : Lessons} (hw : Unpublished w) :
    Watches job (runRound job round draft lessons) w (Concluded job) := by
  unfold runRound
  refine watches_withhold_bind (withholds_codingPass _ _ _) hw fun result w hw => ?_
  dsimp only
  split
  · exact ensures_ret (concluded_gaveUp hw)
  · refine watches_withhold_bind ((commitPass_local job).mono withholds_of_isLocalGit) hw
      fun ending w hw => ?_
    split
    · exact ensures_ret (concluded_gaveUp hw)
    · exact verifyRound_watches hw

theorem runRounds_watches (remaining : ℕ) :
    ∀ (round : ℕ) (draft : Draft) (lessons : Lessons) (w : Watch), Unpublished w →
      Watches job (runRounds job remaining round draft lessons) w (Concluded job) := by
  induction remaining with
  | zero => exact fun _ _ _ _ hw => ensures_ret (concluded_gaveUp hw)
  | succ remaining ih =>
    intro round draft lessons w hw
    unfold runRounds
    refine ensures_bind ((runRound_watches hw).weaken fun ending w' hending => ?_)
    split
    · exact ih _ _ _ w' hending.unpublished
    · exact ensures_ret hending

end Round

/-! ### The publication -/

section Publication

variable [Host] [Unicode] {job : Job} {w : Watch} {draft : Draft} {settled : Settled}

/-- A push that landed, and a pull request asked for when there was none. -/
structure Published (job : Job) (result : IssueOutcome) (w : Watch) : Prop where
  pushed : ∃ push inspection, w.pushes = [push] ∧ push.landed = true ∧
    push.inspection = some inspection ∧ result.risk = inspection.risk job ∧
    w.requests = if result.status = .opened then
      [⟨job.branch, job.deps.defaultBranch, some inspection⟩] else []

/-- Nothing was published: no push landed, and no pull request was asked for. -/
structure Withheld (w : Watch) : Prop where
  pushes : ∀ push ∈ w.pushes, push.landed = false
  requests : w.requests = []

/-- What a run that returned has published. -/
structure Answered (job : Job) (result : IssueOutcome) (w : Watch) : Prop where
  accounted : Accounted job w
  published : result.status = .opened ∨ result.status = .updated → Published job result w
  withheld : ¬ (result.status = .opened ∨ result.status = .updated) → Withheld w

omit [Unicode] in
theorem fail_watches {detail : Text} (haccounted : Accounted job w) (hw : Withheld w) :
    Watches job (fail job draft detail) w (Answered job) := by
  unfold fail
  refine watches_stay_bind (stays_save _) haccounted fun draft => ?_
  refine watches_stay_bind (stays_call ⟨rfl, fun _ _ => rfl⟩) haccounted fun _ => ?_
  refine watches_stay_bind (stays_call ⟨rfl, fun _ _ => rfl⟩) haccounted fun _ => ?_
  refine watches_stay_bind (stays_call ⟨rfl, fun _ _ => rfl⟩) haccounted fun _ => ?_
  refine watches_stay_bind (stays_call ⟨rfl, fun _ _ => rfl⟩) haccounted fun _ => ?_
  exact ensures_ret ⟨haccounted, by simp, fun _ => hw⟩

omit [Host] [Unicode] in
theorem Unpublished.withheld (h : Unpublished w) : Withheld w := by
  refine ⟨?_, h.requests⟩
  rw [h.pushes]
  simp

/-- The watch once an approved commit was pushed. -/
structure Landed (job : Job) (settled : Settled) (w : Watch) (inspection : Inspection) : Prop where
  approved : Approved job (job.target w.refs) inspection
  risk : inspection.risk job = some settled.change.risk
  inspected : w.inspection = some inspection
  pushes : w.pushes = [⟨some (job.target w.refs), some inspection, true⟩]

/-- The pull request of the branch. -/
def Job.request (job : Job) (inspection : Inspection) : Request :=
  ⟨job.branch, job.deps.defaultBranch, some inspection⟩

omit [Unicode] in
theorem Approved.sanctioned {target : PushTarget} {inspection : Inspection} {ok : Bool}
    (h : Approved job target inspection) :
    Sanctioned job ⟨some target, some inspection, ok⟩ inspection :=
  ⟨rfl, target, rfl, h, h.shows⟩

omit [Unicode] in
theorem Landed.accounted {inspection : Inspection} (h : Landed job settled w inspection)
    (hrequests : ∀ request ∈ w.requests, request = job.request inspection) : Accounted job w where
  pushes := by
    rw [h.pushes]
    intro push hpush
    obtain rfl := List.mem_singleton.mp hpush
    exact ⟨inspection, h.approved.sanctioned⟩
  requests := by
    rw [h.pushes]
    intro request hrequest
    obtain rfl := hrequests request hrequest
    exact ⟨rfl, rfl, _, List.mem_singleton_self _, rfl, rfl⟩

theorem openPullRequest_watches {inspection : Inspection} (h : Landed job settled w inspection)
    (hrequests : w.requests = []) :
    Watches job (openPullRequest job settled) w fun opened w' =>
      Landed job settled w' inspection ∧ (opened.2 = .opened ∨ opened.2 = .updated) ∧
        w'.requests = if opened.2 = .opened then [job.request inspection] else [] := by
  have haccounted : Accounted job w := h.accounted (by simp [hrequests])
  unfold openPullRequest
  refine watches_stay_bind (stays_call ⟨rfl, fun _ _ => rfl⟩) haccounted fun existing => ?_
  split
  · exact ensures_ret ⟨h, .inr rfl, hrequests⟩
  · refine ensures_bind (ensures_call haccounted fun answer w' hstep => ?_)
    have hnext := watchStep_still rfl hstep
    have hlanded : Landed job settled w' inspection := by
      rw [hnext]
      exact ⟨h.approved, h.risk, h.inspected, h.pushes⟩
    have hasked : w'.requests = [job.request inspection] := by
      rw [hnext]
      simp only [observe, hrequests, h.inspected, List.nil_append, Job.request]
    cases answer with
    | error message => exact ensures_throw (hlanded.accounted (by simp [hasked]))
    | ok number => exact ensures_ret (ensures_ret ⟨hlanded, .inl rfl, hasked⟩)

theorem handOver_watches {inspection : Inspection} (h : Landed job settled w inspection)
    (hrequests : w.requests = []) : Watches job (handOver job draft settled) w (Answered job) := by
  unfold handOver
  refine ensures_bind ((openPullRequest_watches h hrequests).weaken ?_)
  rintro ⟨number, status⟩ w' ⟨hlanded, hstatus, hasked⟩
  have haccounted : Accounted job w' := by
    refine hlanded.accounted ?_
    rw [hasked]
    split <;> simp
  dsimp only
  refine watches_stay_bind stays_now haccounted fun at_ => ?_
  refine watches_stay_bind (stays_save _) haccounted fun _ => ?_
  refine watches_stay_bind (stays_call ⟨rfl, fun _ _ => rfl⟩) haccounted fun _ => ?_
  refine watches_stay_bind (stays_call ⟨rfl, fun _ _ => rfl⟩) haccounted fun _ => ?_
  refine watches_stay_bind (stays_call ⟨rfl, fun _ _ => rfl⟩) haccounted fun _ => ?_
  refine watches_stay_bind (emits_attempt (stays_call ⟨rfl, fun _ _ => rfl⟩)) haccounted fun _ => ?_
  refine ensures_ret ⟨haccounted, fun _ => ?_, fun hnot => absurd hstatus hnot⟩
  exact ⟨_, inspection, hlanded.pushes, rfl, rfl, hlanded.risk.symm, hasked⟩

omit [Unicode] in
/-- After a push of an approved commit. -/
theorem pushed_accounted {inspection : Inspection} {ok : Bool}
    (happroved : Approved job (job.target w.refs) inspection)
    (hpushes : w.pushes = [⟨some (job.target w.refs), some inspection, ok⟩])
    (hrequests : w.requests = []) : Accounted job w := by
  refine ⟨?_, by simp [hrequests]⟩
  rw [hpushes]
  intro push hpush
  obtain rfl := List.mem_singleton.mp hpush
  exact ⟨inspection, happroved.sanctioned⟩

theorem publish_watches {inspection : Inspection} (hbranch : Pushable job.branch)
    (hw : Unpublished w) (hinspected : w.inspection = some inspection)
    (happroved : Approved job (job.target w.refs) inspection)
    (hrisk : inspection.risk job = some settled.change.risk) :
    Watches job (publish job draft settled) w (Answered job) := by
  unfold publish pushBranch
  split
  · exact fail_watches hw.accounted hw.withheld
  · have hpush : (pushArgs job.deps.remote job.branch).head? = some (lit "push") := rfl
    have hstill : movesRefs (.git job.worktree (pushArgs job.deps.remote job.branch)) = false := by
      simp [movesRefs, hpush]
    refine ensures_bind (ensures_attempt (ensures_call hw.accounted fun answer w' hstep => ?_))
    have hnext := watchStep_still hstill hstep
    simp only [observe, hpush, if_true, pushTarget_pushArgs hbranch] at hnext
    have hrequests : w'.requests = [] := hnext ▸ hw.requests
    have hpushes : w'.pushes = [⟨some (job.target w'.refs), some inspection, landed answer⟩] := by
      rw [hnext]
      show w.pushes ++ [⟨_, w.inspection, landed answer⟩] = _
      rw [hw.pushes, hinspected, List.nil_append]
      rfl
    have happroved' : Approved job (job.target w'.refs) inspection := hnext ▸ happroved
    have haccounted : Accounted job w' := pushed_accounted happroved' hpushes hrequests
    have hfailed : landed answer = false → ∀ detail,
        Watches job (fail job draft detail) w' (Answered job) := by
      intro hnot detail
      refine fail_watches haccounted ⟨?_, hrequests⟩
      rw [hpushes]
      intro push hpush
      obtain rfl := List.mem_singleton.mp hpush
      exact hnot
    cases answer with
    | error message => exact ensures_throw (hfailed rfl _)
    | ok result =>
      refine ensures_ret ?_
      dsimp only
      split
      · rename_i hcode
        exact hfailed (by simpa [landed] using hcode) _
      · rename_i hcode
        have hlanded : landed (.ok result) = true := by simpa [landed] using hcode
        refine handOver_watches ⟨happroved', hrisk, hnext ▸ hinspected, ?_⟩ hrequests
        rw [hpushes, hlanded]

theorem implementIssue_watches (hbranch : Pushable job.branch) (hw : Unpublished w) :
    Watches job (implementIssue job draft) w (Answered job) := by
  unfold implementIssue
  refine watches_withhold_bind ⟨fun _ _ => ⟨rfl, rfl⟩, fun answer => emits_raise answer⟩ hw
    fun installed w hw => ?_
  split
  · exact fail_watches hw.accounted hw.withheld
  · split
    · exact fail_watches hw.accounted hw.withheld
    · refine ensures_bind ((runRounds_watches _ _ _ _ w hw).weaken fun ending w' hending => ?_)
      split
      · obtain ⟨inspection, hinspected, happroved, hrisk⟩ := hending.settled _ _ rfl
        exact publish_watches hbranch hending.unpublished hinspected happroved hrisk
      · exact fail_watches hending.unpublished.accounted hending.unpublished.withheld
      · exact fail_watches hending.unpublished.accounted hending.unpublished.withheld

theorem workJob_watches (hbranch : Pushable job.branch) (hw : Unpublished w) :
    Watches job (workJob job) w (Answered job) := by
  unfold workJob
  refine watches_stay_bind stays_claim hw.accounted fun draft => ?_
  refine watches_withhold_bind
    (emits_attempt ((prepare_local job).mono withholds_of_isLocalGit)) hw fun prepared w hw => ?_
  split
  · exact fail_watches hw.accounted hw.withheld
  · exact implementIssue_watches hbranch hw

/-- **Nothing unapproved is published.**  Wherever a run of `workIssue` ends, every push it tried
was of the branch as it was when the last diff was taken, classified, verified, reviewed and
approved of in the round before; where `git diff` exited well with `HEAD` on the branch, of the
commit whose diff that is; and every pull request it asked for came after one that landed.  A run
that answers `opened` or `updated` has made one such push; a run with another answer has published
nothing. -/
theorem workIssue_accounted (deps : RunnerDeps) (issue : IssueSummary) (options : WorkOptions)
    (refs : Refs) {trace : List RunnerEvent} {outcome : Outcome Text IssueOutcome} {w : Watch}
    (hrun : Run (workIssue deps issue options) trace outcome)
    (hsteps : Steps watchStep (unwatched refs) trace w) :
    Accounted (newJob deps issue options) w ∧
      ∀ result, outcome = .returned result → Answered (newJob deps issue options) result w := by
  have hstart : Unpublished (unwatched refs) := ⟨rfl, rfl⟩
  have hbranch : Pushable (newJob deps issue options).branch := pushable_branchName _ _
  have hmeets := workJob_watches hbranch hstart trace outcome w hrun hsteps
  cases outcome with
  | returned result =>
    refine ⟨hmeets.accounted, fun result' heq => ?_⟩
    cases heq
    exact hmeets
  | threw e => exact ⟨hmeets, fun result heq => by simp at heq⟩
  | interrupted => exact ⟨hmeets, fun result heq => by simp at heq⟩

end Publication

/-! ### Runs under watch -/

/-- Every operation is answered by the script, and the agent leaves branches and `HEAD`
elsewhere. -/
def watchWorld (script : (op : Op) → op.Answer) (left : Refs → Refs) (w : Watch) (op : Op) :
    Option (op.Answer × Watch) :=
  some (script op, { observe w ⟨op, script op⟩ with
    refs := match op with
      | .implement _ => left w.refs
      | _ => w.refs })

theorem watchWorld_steps (script : (op : Op) → op.Answer) (left : Refs → Refs) (w : Watch) (op : Op)
    (answer : op.Answer) (w' : Watch) (h : watchWorld script left w op = some (answer, w')) :
    watchStep w ⟨op, answer⟩ w' := by
  obtain ⟨rfl, rfl⟩ := Prod.mk.inj (Option.some.inj h)
  refine ⟨rfl, fun hstill => ?_⟩
  cases op with
  | implement task => exact absurd hstill (by simp [movesRefs])
  | _ => rfl

def sampleJob : Job :=
  @newJob asciiHost asciiUnicode sampleDeps (@toSummary asciiHost (sampleIssue 1)) ⟨0, none⟩

/-- The branch of the issue is checked out in its worktree, and is at commit 3. -/
def sampleRefs : Refs :=
  ⟨fun name => if name = sampleJob.branch then some 3 else none, fun _ => .branch sampleJob.branch⟩

/-- The agent commits. -/
def commits (refs : Refs) : Refs :=
  { refs with named := fun name => if name = sampleJob.branch then some 4 else refs.named name }

/-- The agent checks out a commit of its own. -/
def strays (refs : Refs) : Refs := { refs with heads := fun _ => .detached 5 }

/-- The work on issue 1. -/
abbrev sampleWork : Action IssueOutcome :=
  @workIssue asciiHost asciiUnicode sampleDeps (@toSummary asciiHost (sampleIssue 1)) ⟨0, none⟩

def watchedWork (script : (op : Op) → op.Answer) (left : Refs → Refs) :
    List RunnerEvent × Outcome Text IssueOutcome × Watch :=
  play (watchWorld script left) sampleWork (unwatched sampleRefs)

theorem watchedWork_run (script : (op : Op) → op.Answer) (left : Refs → Refs) :
    Run sampleWork (watchedWork script left).1 (watchedWork script left).2.1 :=
  run_play _ _ _

theorem watchedWork_steps (script : (op : Op) → op.Answer) (left : Refs → Refs) :
    Steps watchStep (unwatched sampleRefs) (watchedWork script left).1
      (watchedWork script left).2.2 :=
  steps_play (watchWorld script left) id (watchWorld_steps script left) sampleWork _

/-- How a run answered, when it did. -/
def statusOf : Outcome Text IssueOutcome → Option IssueStatus
  | .returned result => some result.status
  | _ => none

theorem statusOf_eq_some {outcome : Outcome Text IssueOutcome} {status : IssueStatus}
    (h : statusOf outcome = some status) :
    ∃ result, outcome = .returned result ∧ result.status = status := by
  cases outcome <;> simp only [statusOf, Option.some.injEq, reduceCtorEq] at h
  case returned result => exact ⟨result, rfl, h⟩

/-- What was pushed, how the diff of its round exited, and of which commit it was. -/
def Push.facts (push : Push) : Option (Option Commit × ℕ × Head × Option Commit) := do
  let target ← push.target
  let inspection ← push.inspection
  some (target.commit, inspection.code, inspection.refs.heads sampleJob.worktree, inspection.commit)

theorem facts_eq_some {push : Push} {pushed diffed : Option Commit} {code : ℕ} {head : Head}
    (h : push.facts = some (pushed, code, head, diffed)) : ∃ target inspection,
      push.target = some target ∧ push.inspection = some inspection ∧ target.commit = pushed ∧
        inspection.code = code ∧ inspection.refs.heads sampleJob.worktree = head ∧
        inspection.commit = diffed := by
  unfold Push.facts at h
  cases htarget : push.target with
  | none => simp [htarget] at h
  | some target =>
    cases hinspection : push.inspection with
    | none => simp [htarget, hinspection] at h
    | some inspection =>
      simp only [htarget, hinspection, Option.bind_eq_bind, Option.bind_some, Option.some.injEq,
        Prod.mk.injEq] at h
      exact ⟨target, inspection, rfl, rfl, h.1, h.2.1, h.2.2.1, h.2.2.2⟩

theorem calm_facts :
    statusOf (watchedWork calm commits).2.1 = some .opened ∧
      (watchedWork calm commits).2.2.pushes.map Push.facts =
        [some (some 4, 0, .branch sampleJob.branch, some 4)] := by
  decide +kernel

/-- A run in which everything goes well pushes the commit whose diff was approved of. -/
theorem workIssue_accounted_calm :
    ∃ result w, Run sampleWork (watchedWork calm commits).1 (.returned result) ∧
      Steps watchStep (unwatched sampleRefs) (watchedWork calm commits).1 w ∧
      result.status = .opened ∧ @Published asciiHost sampleJob result w ∧
      ∃ push ∈ w.pushes, ∃ inspection, @Sanctioned asciiHost sampleJob push inspection ∧
        inspection.Shows (some 4) := by
  obtain ⟨hopened, hfacts⟩ := calm_facts
  obtain ⟨result, houtcome, hstatus⟩ := statusOf_eq_some hopened
  have hrun := watchedWork_run calm commits
  rw [houtcome] at hrun
  have hsteps := watchedWork_steps calm commits
  obtain ⟨⟨haccounted, -⟩, hanswered⟩ := @workIssue_accounted asciiHost asciiUnicode sampleDeps
    (@toSummary asciiHost (sampleIssue 1)) ⟨0, none⟩ sampleRefs _ _ _ hrun hsteps
  obtain ⟨-, hpublished, -⟩ := hanswered result rfl
  refine ⟨result, _, hrun, hsteps, hstatus, hpublished (.inl hstatus), ?_⟩
  obtain ⟨push, hpush, hpushed⟩ := List.map_eq_singleton_iff.mp hfacts
  have hmem : push ∈ (watchedWork calm commits).2.2.pushes := by simp [hpush]
  obtain ⟨inspection, hsanctioned⟩ := haccounted push hmem
  have hparts := hsanctioned
  obtain ⟨hinspected, target, htarget, -, hshows⟩ := hparts
  obtain ⟨target', inspection', htarget', hinspected', hcommit, hcode, hhead, -⟩ :=
    facts_eq_some hpushed
  obtain rfl : target' = target := Option.some.inj (htarget'.symm.trans htarget)
  obtain rfl : inspection' = inspection := Option.some.inj (hinspected'.symm.trans hinspected)
  exact ⟨push, hmem, inspection', hsanctioned, hcommit ▸ hshows hcode hhead⟩

/-- The pull request of the branch cannot be looked up. -/
def lookupFails (op : Op) : op.Answer :=
  match op with
  | .pullRequestForBranch _ => .error (lit "HTTP 502")
  | op => calm op

/-- The diff of the change cannot be printed. -/
def diffFails (op : Op) : op.Answer :=
  match op with
  | .git cwd args =>
      if (diffRange args).isSome then .ok ⟨128, [], lit "fatal: unable to read tree"⟩
      else calm (.git cwd args)
  | op => calm op

def threwIn : Outcome Text IssueOutcome → Bool
  | .threw _ => true
  | _ => false

theorem threwIn_iff {outcome : Outcome Text IssueOutcome} :
    threwIn outcome = true ↔ ∃ e, outcome = .threw e := by
  cases outcome <;> simp [threwIn]

theorem lookupFails_facts :
    threwIn (watchedWork lookupFails commits).2.1 = true ∧
      (watchedWork lookupFails commits).2.2.pushes.any (fun push => push.landed) = true := by
  decide +kernel

theorem diffFails_facts :
    statusOf (watchedWork diffFails commits).2.1 = some .opened ∧
      (watchedWork diffFails commits).2.2.pushes.map Push.facts =
        [some (some 4, 128, .branch sampleJob.branch, some 4)] := by
  decide +kernel

theorem strays_facts :
    statusOf (watchedWork calm strays).2.1 = some .opened ∧
      (watchedWork calm strays).2.2.pushes.map Push.facts =
        [some (some 3, 0, .detached 5, some 5)] := by
  decide +kernel

/-- A run may throw after it has pushed.  It may answer `opened` though the diff of its commit could
not be printed, and though the agent has left `HEAD` at another commit than the branch, whose diff
was then classified. -/
theorem pushed_otherwise :
    (∃ trace e w, Run sampleWork trace (.threw e) ∧ Steps watchStep (unwatched sampleRefs) trace w ∧
      ∃ push ∈ w.pushes, push.landed = true) ∧
    (∃ trace result w, Run sampleWork trace (.returned result) ∧
      Steps watchStep (unwatched sampleRefs) trace w ∧ result.status = .opened ∧
      ∃ push inspection, w.pushes = [push] ∧ push.inspection = some inspection ∧
        inspection.code = 128) ∧
    ∃ trace result w, Run sampleWork trace (.returned result) ∧
      Steps watchStep (unwatched sampleRefs) trace w ∧ result.status = .opened ∧
      ∃ push target inspection, w.pushes = [push] ∧ push.target = some target ∧
        push.inspection = some inspection ∧ target.commit = some 3 ∧
          inspection.commit = some 5 := by
  refine ⟨?_, ?_, ?_⟩
  · obtain ⟨hthrew, hpushed⟩ := lookupFails_facts
    obtain ⟨e, houtcome⟩ := threwIn_iff.mp hthrew
    have hrun := watchedWork_run lookupFails commits
    rw [houtcome] at hrun
    exact ⟨_, e, _, hrun, watchedWork_steps lookupFails commits, List.any_eq_true.mp hpushed⟩
  · obtain ⟨hopened, hfacts⟩ := diffFails_facts
    obtain ⟨result, houtcome, hstatus⟩ := statusOf_eq_some hopened
    have hrun := watchedWork_run diffFails commits
    rw [houtcome] at hrun
    obtain ⟨push, hpush, hpushed⟩ := List.map_eq_singleton_iff.mp hfacts
    obtain ⟨target, inspection, -, hinspected, -, hcode, -⟩ := facts_eq_some hpushed
    exact ⟨_, result, _, hrun, watchedWork_steps diffFails commits, hstatus, push,
      inspection, hpush, hinspected, hcode⟩
  · obtain ⟨hopened, hfacts⟩ := strays_facts
    obtain ⟨result, houtcome, hstatus⟩ := statusOf_eq_some hopened
    have hrun := watchedWork_run calm strays
    rw [houtcome] at hrun
    obtain ⟨push, hpush, hpushed⟩ := List.map_eq_singleton_iff.mp hfacts
    obtain ⟨target, inspection, htarget, hinspected, hcommit, -, -, hdiffed⟩ :=
      facts_eq_some hpushed
    exact ⟨_, result, _, hrun, watchedWork_steps calm strays, hstatus, push, target,
      inspection, hpush, htarget, hinspected, hcommit, hdiffed⟩

end Newsdeck.Runner

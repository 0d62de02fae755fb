import Newsdeck.Library.Refinement
import Newsdeck.Runner.Footprint

/-!
# The life of one `workIssue`, seen from the journal

What a run of `workIssue` does to the journal, to the two labels that hand the issue over, and to the
coding agent's budget is a path of a small machine: claim the issue, take its record up, and then
invoke, write, note, until one last write blocks the record or publishes it.

* `Phase`, `Trans` — the machine;
* `workIssue_follows` — `workIssue` follows it, however the world answers and wherever it is
  interrupted.
-/

namespace Newsdeck.Runner

open Ecma Loop Effects Effects.Prog

def succeeded {α : Type} : Except Text α → Bool
  | .ok _ => true
  | .error _ => false

/-- What can be seen of a run of `workIssue`. -/
inductive WorkEvent where
  | claimed (ok : Bool)
  | unreadied (ok : Bool)
  | read (journal : Journal)
  | wrote (journal : Journal) (ok : Bool)
  | invoked (round : ℕ)

def workView : RunnerEvent → Option WorkEvent
  | ⟨.addLabels _ labels, answer⟩ =>
      if labels = [inProgressLabel] then some (.claimed (succeeded answer)) else none
  | ⟨.removeLabel _ label, answer⟩ =>
      if label = readyLabel then some (.unreadied (succeeded answer)) else none
  | ⟨.readJournal, journal⟩ => some (.read journal)
  | ⟨.writeJournal journal, answer⟩ => some (.wrote journal (succeeded answer))
  | ⟨.implement task, _⟩ => some (.invoked task.round)
  | _ => none

section Views

variable {op : Op} {answer : op.Answer}

theorem view_wrote {journal : Journal} {ok : Bool}
    (h : workView ⟨op, answer⟩ = some (.wrote journal ok)) :
    ∃ answer', (⟨op, answer⟩ : RunnerEvent) = ⟨.writeJournal journal, answer'⟩ ∧
      succeeded answer' = ok := by
  cases op <;> simp only [workView, Option.some.injEq, reduceCtorEq, WorkEvent.wrote.injEq] at h
  case writeJournal written =>
    obtain ⟨rfl, hok⟩ := h
    exact ⟨answer, rfl, hok⟩
  all_goals split at h <;> simp at h

theorem view_read {journal : Journal} (h : workView ⟨op, answer⟩ = some (.read journal)) :
    (⟨op, answer⟩ : RunnerEvent) = ⟨.readJournal, journal⟩ := by
  cases op <;> simp only [workView, Option.some.injEq, reduceCtorEq] at h
  case readJournal =>
    cases h
    rfl
  all_goals split at h <;> simp at h

theorem view_invoked {round : ℕ} (h : workView ⟨op, answer⟩ = some (.invoked round)) :
    ∃ task answer', (⟨op, answer⟩ : RunnerEvent) = ⟨.implement task, answer'⟩ ∧
      task.round = round := by
  cases op <;> simp only [workView, Option.some.injEq, reduceCtorEq, WorkEvent.invoked.injEq] at h
  case implement task => exact ⟨task, answer, rfl, h⟩
  all_goals split at h <;> simp at h

theorem view_claimed {ok : Bool} (h : workView ⟨op, answer⟩ = some (.claimed ok)) :
    ∃ issue answer', (⟨op, answer⟩ : RunnerEvent) = ⟨.addLabels issue [inProgressLabel], answer'⟩ ∧
      succeeded answer' = ok := by
  cases op <;> simp only [workView, Option.some.injEq, reduceCtorEq] at h
  case addLabels issue labels =>
    split at h
    · rename_i hlabels
      simp only [Option.some.injEq, WorkEvent.claimed.injEq] at h
      exact ⟨issue, answer, by rw [hlabels], h⟩
    · simp at h
  all_goals split at h <;> simp at h

theorem view_unreadied {ok : Bool} (h : workView ⟨op, answer⟩ = some (.unreadied ok)) :
    ∃ issue answer', (⟨op, answer⟩ : RunnerEvent) = ⟨.removeLabel issue readyLabel, answer'⟩ ∧
      succeeded answer' = ok := by
  cases op <;> simp only [workView, Option.some.injEq, reduceCtorEq] at h
  case removeLabel issue label =>
    split at h
    · rename_i hlabel
      simp only [Option.some.injEq, WorkEvent.unreadied.injEq] at h
      exact ⟨issue, answer, by rw [hlabel], h⟩
    · simp at h
  all_goals split at h <;> simp at h

end Views

/-! ### The machine -/

inductive Phase where
  /-- Nothing has happened yet. -/
  | idle
  /-- The issue carries the label of a run at work. -/
  | claiming
  /-- It no longer carries the label that offers it. -/
  | claimed
  | opened (journal : Journal)
  /-- The record is taken up and saved. -/
  | ready (draft : Draft)
  /-- The agent was invoked, and the journal does not say so yet. -/
  | invoked (round : ℕ) (draft : Draft)
  /-- The round is on record. -/
  | working (round : ℕ) (draft : Draft)
  /-- Nothing more is read, written or invoked. -/
  | ended

/-- The phase a step that may fail leads to. -/
def Phase.after : Bool → Phase → Phase
  | true, phase => phase
  | false, _ => .ended

/-- The record a run starts from: the journal's, or a fresh one. -/
def StartsFrom (job : Job) (journal : Journal) (record : RunRecord) : Prop :=
  findRun journal job.number = some record ∨
    findRun journal job.number = none ∧
      ∃ startedAt updatedAt, record = freshRecord job startedAt updatedAt

/-- The draft after its record was replaced and saved. -/
def Draft.saved (draft : Draft) (record : RunRecord) : Draft :=
  ⟨upsertRun draft.journal record, record⟩

/-- An attempt the journal's schema accepts. -/
def Attempt.Fits (attempt : Attempt) : Prop := attempt.detail.length ≤ 2000

/-- The record after a round was spent. -/
def spent (record : RunRecord) (round : ℕ) (attempt : Attempt) : RunRecord :=
  appendAttempt { record with fixRounds := round } attempt

/-- The record with one more attempt. -/
def noted (record : RunRecord) (risk : Option RiskLevel) (attempt : Attempt) : RunRecord :=
  appendAttempt { record with risk := risk } attempt

/-- The record of an issue that was given up. -/
def givenUp (record : RunRecord) : RunRecord := { record with status := .blocked }

/-- The record of an issue whose pull request is open. -/
def published (record : RunRecord) (risk : RiskLevel) (at_ : Text) (number : ℕ) : RunRecord :=
  { appendAttempt record (publishAttempt at_ number) with
    status := .awaitingReview
    pullRequest := some number
    risk := some risk }

inductive Trans (job : Job) : Phase → WorkEvent → Phase → Prop
  | claim (ok : Bool) : Trans job .idle (.claimed ok) (.after ok .claiming)
  | unready (ok : Bool) : Trans job .claiming (.unreadied ok) (.after ok .claimed)
  | read (journal : Journal) : Trans job .claimed (.read journal) (.opened journal)
  | take (journal : Journal) (record : RunRecord) (ok : Bool)
      (start : StartsFrom job journal record) :
      Trans job (.opened journal) (.wrote (upsertRun journal (taken job record)) ok)
        (.after ok (.ready (Draft.saved ⟨journal, record⟩ (taken job record))))
  | first (draft : Draft) (left : job.options.startRound < job.maxRounds) :
      Trans job (.ready draft) (.invoked job.options.startRound)
        (.invoked job.options.startRound draft)
  | next (round : ℕ) (draft : Draft) (left : round + 1 < job.maxRounds) :
      Trans job (.working round draft) (.invoked (round + 1)) (.invoked (round + 1) draft)
  | spend (round : ℕ) (draft : Draft) (attempt : Attempt) (ok : Bool) (fits : attempt.Fits) :
      Trans job (.invoked round draft)
        (.wrote (upsertRun draft.journal (spent draft.record round attempt)) ok)
        (.after ok (.working round (draft.saved (spent draft.record round attempt))))
  | note (round : ℕ) (draft : Draft) (risk : Option RiskLevel) (attempt : Attempt) (ok : Bool)
      (fits : attempt.Fits) :
      Trans job (.working round draft)
        (.wrote (upsertRun draft.journal (noted draft.record risk attempt)) ok)
        (.after ok (.working round (draft.saved (noted draft.record risk attempt))))
  | refuse (draft : Draft) (ok : Bool) :
      Trans job (.ready draft) (.wrote (upsertRun draft.journal (givenUp draft.record)) ok) .ended
  | giveUp (round : ℕ) (draft : Draft) (ok : Bool) :
      Trans job (.working round draft)
        (.wrote (upsertRun draft.journal (givenUp draft.record)) ok) .ended
  | publish (round : ℕ) (draft : Draft) (risk : RiskLevel) (at_ : Text) (number : ℕ) (ok : Bool) :
      Trans job (.working round draft)
        (.wrote (upsertRun draft.journal (published draft.record risk at_ number)) ok) .ended

/-- A run that returned has come to its end. -/
def EndsWith {α : Type} : Outcome Text α → Phase → Prop
  | .returned _, phase => phase = .ended
  | _, _ => True

/-! ### Logs that spell a path -/

/-- The log leads to the phase. -/
abbrev At (job : Job) (log : List WorkEvent) (phase : Phase) : Prop :=
  Path (Trans job) .idle log phase

/-- Every run of the action from the log stays on a path, and one that returns meets the
postcondition. -/
abbrev Keeps {α : Type} (job : Job) (p : Action α) (log : List WorkEvent)
    (post : α → List WorkEvent → Prop) : Prop :=
  Spells workView (Trans job) .idle p log post

/-- Nothing of the operation can be seen. -/
abbrev Quiet (op : Op) : Prop := Silent workView op

section Rules

variable {job : Job} {log : List WorkEvent} {phase : Phase}

theorem quiet_of_isGit (op : Op) (h : IsGit op) : Quiet op := by
  obtain ⟨cwd, args, rfl⟩ := h
  exact fun _ => rfl

theorem quiet_of_isReview (op : Op) (h : IsReview op) : Quiet op := by
  rcases h with rfl | ⟨reviewer, task, rfl⟩
  · exact fun _ => rfl
  · exact fun _ => rfl

/-- A visible operation that may throw. -/
theorem keeps_throwing {α : Type} (op : Op) (answerOf : op.Answer → Except Text α)
    (event : Bool → WorkEvent) {next : Phase} (h : At job log phase)
    (hview : ∀ answer, workView ⟨op, answer⟩ = some (event (succeeded (answerOf answer))))
    (htrans : ∀ ok, Trans job phase (event ok) (.after ok next)) :
    Keeps job (.call op fun answer => raise (answerOf answer)) log
      fun _ log' => At job log' next := by
  refine spells_call _ (fun answer => .after (succeeded (answerOf answer)) next) h hview
    (fun answer => htrans _) fun answer log' hpath => ?_
  refine ensures_raise (fun a ha => ?_) fun e _ => ⟨_, hpath⟩
  rw [ha] at hpath
  exact hpath

/-- Saving a draft whose record the machine may write next. -/
theorem keeps_save {draft : Draft} (next : Phase) (h : At job log phase)
    (htrans : ∀ ok, Trans job phase (.wrote (upsertRun draft.journal draft.record) ok)
      (.after ok next)) :
    Keeps job (save draft) log fun draft' log' =>
      draft' = ⟨upsertRun draft.journal draft.record, draft.record⟩ ∧ At job log' next := by
  unfold save
  refine ensures_bind ((keeps_throwing (.writeJournal _) id
    (.wrote (upsertRun draft.journal draft.record)) h (fun _ => rfl) htrans).weaken ?_)
  intro _ log' hlog'
  exact ensures_ret ⟨rfl, hlog'⟩

@[simp] theorem after_ended (ok : Bool) : Phase.after ok .ended = .ended := by
  cases ok <;> rfl

theorem quiet_now : now.Emits Quiet := ⟨fun _ => rfl, fun _ => trivial⟩

theorem quiet_logLine (text : Text) : (logLine text).Emits Quiet :=
  ⟨fun _ => rfl, fun answer => emits_raise answer⟩

theorem quiet_logArtifact (name : Text) (value : Artifact) : (logArtifact name value).Emits Quiet :=
  ⟨fun _ => rfl, fun answer => emits_raise answer⟩

theorem quiet_addLabels {labels : List Text} (h : labels ≠ [inProgressLabel]) (issue : ℕ) :
    (addLabels issue labels).Emits Quiet :=
  ⟨fun _ => if_neg h, fun answer => emits_raise answer⟩

theorem quiet_removeLabel {label : Text} (h : label ≠ readyLabel) (issue : ℕ) :
    (removeLabel issue label).Emits Quiet :=
  ⟨fun _ => if_neg h, fun answer => emits_raise answer⟩

theorem quiet_comment (issue : ℕ) (input : RunnerCommentInput) : (comment issue input).Emits Quiet :=
  ⟨fun _ => rfl, fun answer => emits_raise answer⟩

theorem blockedLabel_ne : [blockedLabel] ≠ [inProgressLabel] := by
  simp [blockedLabel, inProgressLabel]

theorem reviewLabel_ne : [reviewLabel] ≠ [inProgressLabel] := by
  simp [reviewLabel, inProgressLabel]

theorem inProgressLabel_ne : inProgressLabel ≠ readyLabel := by
  simp [readyLabel, inProgressLabel]

end Rules

/-! ### The parts of `workIssue` -/

section Parts

variable {job : Job} {log : List WorkEvent} {phase : Phase} {draft : Draft}

theorem recordFor_keeps {journal : Journal} (h : At job log phase) :
    Keeps job (recordFor job journal) log fun record log' =>
      StartsFrom job journal record ∧ At job log' phase := by
  unfold recordFor
  cases hfind : findRun journal job.number with
  | some record => exact ensures_ret ⟨.inl hfind, h⟩
  | none =>
    refine spells_quiet_bind quiet_now h fun startedAt log' h => ?_
    refine spells_quiet_bind quiet_now h fun updatedAt log' h => ?_
    exact ensures_ret ⟨.inr ⟨hfind, startedAt, updatedAt, rfl⟩, h⟩

theorem claim_keeps (h : At job log .idle) :
    Keeps job (claim job) log fun draft log' => At job log' (.ready draft) := by
  unfold claim
  refine spells_quiet_bind ⟨fun _ => rfl, fun answer => emits_raise answer⟩ h fun _ log h => ?_
  refine spells_quiet_bind (quiet_logLine _) h fun _ log h => ?_
  refine ensures_bind ((keeps_throwing (.addLabels job.number [inProgressLabel]) id .claimed h
    (fun _ => by simp [workView]) .claim).weaken fun _ log h => ?_)
  refine ensures_bind ((keeps_throwing (.removeLabel job.number readyLabel) id .unreadied h
    (fun _ => by simp [workView]) .unready).weaken fun _ log h => ?_)
  refine ensures_bind (ensures_call ⟨_, h⟩ fun journal log' hstep => ensures_ret ?_)
  have hread : At job log' (.opened journal) := by
    rw [hstep]
    exact h.snoc (.read journal)
  refine ensures_bind ((recordFor_keeps hread).weaken fun record log'' hrecord => ?_)
  refine (keeps_save _ hrecord.2 fun ok => .take journal record ok hrecord.1).weaken ?_
  rintro draft log' ⟨rfl, hready⟩
  exact hready

/-- Any failure, from a phase in which the record may be given up. -/
theorem fail_keeps {detail : Text} (h : At job log phase)
    (htrans : ∀ ok, Trans job phase (.wrote (upsertRun draft.journal (givenUp draft.record)) ok)
      .ended) :
    Keeps job (fail job draft detail) log fun _ log' => At job log' .ended := by
  unfold fail
  refine ensures_bind ((keeps_save .ended h fun ok => ?_).weaken ?_)
  · rw [after_ended]
    exact htrans ok
  · rintro draft log ⟨-, h⟩
    refine spells_quiet_bind (quiet_logLine _) h fun _ log h => ?_
    refine spells_quiet_bind (quiet_removeLabel inProgressLabel_ne _) h fun _ log h => ?_
    refine spells_quiet_bind (quiet_addLabels blockedLabel_ne _) h fun _ log h => ?_
    refine spells_quiet_bind (quiet_comment _ _) h fun _ log h => ?_
    exact ensures_ret h

theorem codingAttempt_fits (round : ℕ) (at_ : Text) (coded : CodingOutcome) :
    (codingAttempt round at_ coded).Fits := by
  cases coded with
  | ok summary => exact List.length_take_le _ _
  | failed reason detail => exact List.length_take_le _ _

theorem codingPass_keeps {round : ℕ} {lessons : Lessons} (h : At job log phase)
    (hinvoke : Trans job phase (.invoked round) (.invoked round draft)) :
    Keeps job (codingPass job round draft lessons) log
      fun result log' => At job log' (.working round result.1) := by
  unfold codingPass
  refine spells_quiet_bind ⟨fun _ => rfl, fun _ => trivial⟩ h fun _ log h => ?_
  refine ensures_bind (ensures_call ⟨_, h⟩ fun answer log' hstep => ?_)
  have hinvoked : At job log' (.invoked round draft) := by
    rw [hstep]
    exact h.snoc hinvoke
  refine ensures_raise (fun coded _ => ?_) fun _ _ => ⟨_, hinvoked⟩
  have h := hinvoked
  refine spells_quiet_bind (quiet_logArtifact _ _) h fun _ log h => ?_
  refine spells_quiet_bind quiet_now h fun at_ log h => ?_
  refine ensures_bind ((keeps_save _ h fun ok =>
    .spend round draft _ ok (codingAttempt_fits round at_ coded)).weaken ?_)
  rintro draft' log ⟨rfl, h⟩
  exact ensures_ret h

theorem verifyPass_keeps {round : ℕ} {change : Change} {risk : Option RiskLevel}
    (h : At job log (.working round draft)) :
    Keeps job (verifyPass job round { draft with record := { draft.record with risk := risk } } change)
      log fun result log' => At job log' (.working round result.1) := by
  unfold verifyPass
  refine spells_quiet_bind ⟨fun _ => rfl, fun answer => emits_raise answer⟩ h
    fun verification log h => ?_
  refine spells_quiet_bind (quiet_logArtifact _ _) h fun _ log h => ?_
  refine spells_quiet_bind quiet_now h fun at_ log h => ?_
  refine ensures_bind ((keeps_save _ h fun ok =>
    .note round draft risk _ ok (List.length_take_le _ _)).weaken ?_)
  rintro draft' log ⟨rfl, h⟩
  exact ensures_ret h

theorem reviewDetail_fits {usable required : ℕ} (husable : usable ≤ 4) (hrequired : required ≤ 4) :
    (decimal usable ++ lit "/" ++ decimal required ++ lit " usable review(s)").length ≤ 2000 := by
  have hdigit : ∀ n ≤ 4, (decimal n).length ≤ 1 := by decide +kernel
  have hu := hdigit usable husable
  have hr := hdigit required hrequired
  have hslash : (lit "/").length = 1 := by decide
  have htail : (lit " usable review(s)").length = 17 := by decide
  rw [List.length_append, List.length_append, List.length_append, hslash, htail]
  omega

theorem reviewPass_keeps {round required : ℕ} {change : Change} (hrequired : required ≤ 4)
    (h : At job log (.working round draft)) :
    Keeps job (reviewPass job round draft change required) log
      fun result log' => At job log' (.working round result.1) := by
  unfold reviewPass
  refine ensures_bind (((spells_quiet ((gatherReviews_emits _ _ _).mono quiet_of_isReview) h).returns
    (gatherReviews_usable _ _ _)).weaken ?_)
  rintro reviews log ⟨h, husable⟩
  refine spells_quiet_bind (quiet_logArtifact _ _) h fun _ log h => ?_
  refine spells_quiet_bind quiet_now h fun at_ log h => ?_
  refine ensures_bind ((keeps_save _ h fun ok =>
    .note round draft draft.record.risk _ ok ?_).weaken ?_)
  · exact reviewDetail_fits (husable.trans hrequired) hrequired
  · rintro draft' log ⟨rfl, h⟩
    exact ensures_ret h

variable [Host]

theorem reviewRound_keeps {round : ℕ} {change : Change} {verification : VerificationOutcome}
    (h : At job log (.working round draft)) :
    Keeps job (reviewRound job round draft change verification) log
      fun ending log' => At job log' (.working round ending.draft) := by
  unfold reviewRound
  refine ensures_bind ((reviewPass_keeps (job.deps.policy_reviewers _).2 h).weaken ?_)
  intro result log h
  dsimp only
  split
  · exact ensures_ret h
  · split
    · exact ensures_ret h
    · split
      · exact ensures_ret h
      · exact ensures_ret h
    · exact ensures_ret h

theorem verifyRound_keeps {round : ℕ} (h : At job log (.working round draft)) :
    Keeps job (verifyRound job round draft) log
      fun ending log' => At job log' (.working round ending.draft) := by
  unfold verifyRound
  have hclassify : Keeps job (classifyPass job draft) log fun result log' =>
      (∃ risk, result.1 = { draft with record := { draft.record with risk := risk } }) ∧
        At job log' (.working round draft) := by
    unfold classifyPass
    refine spells_quiet_bind ((changedFiles_emits _ _).mono quiet_of_isGit) h fun files log h => ?_
    refine spells_quiet_bind ((git_emits _ _).mono quiet_of_isGit) h fun rawDiff log h => ?_
    refine spells_quiet_bind ((proposedPolicy_emits _ _).mono ?_) h fun headPolicy log h => ?_
    · rintro op rfl
      exact fun _ => rfl
    · split
      · exact ensures_throw ⟨_, h⟩
      · refine spells_quiet_bind (quiet_logArtifact _ _) h fun _ log h => ?_
        exact ensures_ret ⟨⟨_, rfl⟩, h⟩
  refine ensures_bind (hclassify.weaken ?_)
  rintro ⟨draft', change⟩ log ⟨⟨risk, rfl⟩, h⟩
  refine ensures_bind ((verifyPass_keeps h).weaken fun verified log h => ?_)
  dsimp only
  split
  · exact ensures_ret h
  · split
    · split
      · exact ensures_ret h
      · exact ensures_ret h
    · exact reviewRound_keeps h

/-- One round, from a phase in which it may be spent. -/
theorem runRound_keeps {round : ℕ} {lessons : Lessons} (h : At job log phase)
    (hinvoke : Trans job phase (.invoked round) (.invoked round draft)) :
    Keeps job (runRound job round draft lessons) log
      fun ending log' => At job log' (.working round ending.draft) := by
  unfold runRound
  refine ensures_bind ((codingPass_keeps h hinvoke).weaken ?_)
  rintro ⟨draft, coded⟩ log h
  dsimp only
  split
  · exact ensures_ret h
  · refine spells_quiet_bind ((commitPass_emits job).mono quiet_of_isGit) h fun ending log h => ?_
    split
    · exact ensures_ret h
    · exact verifyRound_keeps h

/-- The rounds after one that is on record. -/
theorem runRounds_keeps (remaining : ℕ) :
    ∀ (round : ℕ) (draft : Draft) (lessons : Lessons) (log : List WorkEvent),
      At job log (.working round draft) → round + 1 + remaining = job.maxRounds →
      Keeps job (runRounds job remaining (round + 1) draft lessons) log
        fun ending log' => ∃ last, At job log' (.working last ending.draft) := by
  induction remaining with
  | zero =>
    intro round draft lessons log h _
    exact ensures_ret ⟨round, h⟩
  | succ remaining ih =>
    intro round draft lessons log h hbound
    unfold runRounds
    refine ensures_bind ((runRound_keeps h (.next round draft (by omega))).weaken ?_)
    intro ending log h
    split
    · exact ih (round + 1) _ _ log h (by omega)
    · exact ensures_ret ⟨round + 1, h⟩

/-- All rounds, from the first the budget leaves. -/
theorem allRounds_keeps {lessons : Lessons} (h : At job log (.ready draft))
    (hleft : job.options.startRound < job.maxRounds) :
    Keeps job (runRounds job (job.maxRounds - job.options.startRound) job.options.startRound draft
      lessons) log fun ending log' => ∃ last, At job log' (.working last ending.draft) := by
  obtain ⟨remaining, hremaining⟩ := Nat.exists_eq_succ_of_ne_zero (Nat.sub_ne_zero_of_lt hleft)
  rw [hremaining]
  unfold runRounds
  refine ensures_bind ((runRound_keeps h (.first draft hleft)).weaken ?_)
  intro ending log h
  split
  · exact runRounds_keeps remaining _ _ _ log h (by omega)
  · exact ensures_ret ⟨_, h⟩

variable [Unicode]

omit [Host] in
theorem handOver_keeps {round : ℕ} {settled : Settled} (h : At job log (.working round draft)) :
    Keeps job (handOver job draft settled) log fun _ log' => At job log' .ended := by
  have hopen : (openPullRequest job settled).Emits Quiet := by
    unfold openPullRequest
    refine emits_bind ⟨fun _ => rfl, fun answer => emits_raise answer⟩ fun existing => ?_
    split
    · trivial
    · exact emits_bind ⟨fun _ => rfl, fun answer => emits_raise answer⟩ fun _ => trivial
  unfold handOver
  refine spells_quiet_bind hopen h fun opened log h => ?_
  dsimp only
  refine spells_quiet_bind quiet_now h fun at_ log h => ?_
  refine ensures_bind ((keeps_save .ended h fun ok => ?_).weaken ?_)
  · rw [after_ended]
    exact .publish round draft settled.change.risk.risk at_ opened.1 ok
  · rintro draft' log ⟨-, h⟩
    refine spells_quiet_bind (quiet_logLine _) h fun _ log h => ?_
    refine spells_quiet_bind (quiet_removeLabel inProgressLabel_ne _) h fun _ log h => ?_
    refine spells_quiet_bind (quiet_addLabels reviewLabel_ne _) h fun _ log h => ?_
    refine spells_quiet_bind
      (emits_attempt ⟨fun _ => rfl, fun answer => emits_raise answer⟩) h fun _ log h => ?_
    exact ensures_ret h

omit [Host] in
theorem publish_keeps {round : ℕ} {settled : Settled} (h : At job log (.working round draft)) :
    Keeps job (publish job draft settled) log fun _ log' => At job log' .ended := by
  unfold publish
  refine spells_quiet_bind (emits_attempt ((pushBranch_emits _ _ _).mono quiet_of_isGit)) h
    fun pushed log h => ?_
  split
  · exact fail_keeps h (.giveUp round draft)
  · split
    · exact fail_keeps h (.giveUp round draft)
    · exact handOver_keeps h

theorem implementIssue_keeps (h : At job log (.ready draft)) :
    Keeps job (implementIssue job draft) log fun _ log' => At job log' .ended := by
  unfold implementIssue
  refine spells_quiet_bind ⟨fun _ => rfl, fun answer => emits_raise answer⟩ h
    fun installed log h => ?_
  split
  · exact fail_keeps h (.refuse draft)
  · split
    · exact fail_keeps h (.refuse draft)
    · rename_i hleft
      refine ensures_bind ((allRounds_keeps h (by omega)).weaken ?_)
      rintro ending log ⟨last, h⟩
      split
      · exact publish_keeps h
      · exact fail_keeps h (.giveUp last _)
      · exact fail_keeps h (.giveUp last _)

theorem workJob_keeps (h : At job log .idle) :
    Keeps job (workJob job) log fun _ log' => At job log' .ended := by
  unfold workJob
  refine ensures_bind ((claim_keeps h).weaken fun draft log h => ?_)
  refine spells_quiet_bind (emits_attempt ((prepare_emits job).mono quiet_of_isGit)) h
    fun prepared log h => ?_
  split
  · exact fail_keeps h (.refuse draft)
  · exact implementIssue_keeps h

/-- **Refinement.**  Whatever the world answers, and wherever it is interrupted, a run of `workIssue`
is a path of the machine. -/
theorem workJob_follows (job : Job) :
    Follows workView (Trans job) .idle EndsWith (workJob job) := by
  refine follows_of_spells ((workJob_keeps (.nil : At job [] .idle)).weaken ?_) ?_ ?_
  · exact fun _ log h => ⟨.ended, h, rfl⟩
  · exact fun _ _ => trivial
  · exact fun _ => trivial

end Parts

end Newsdeck.Runner

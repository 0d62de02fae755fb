import Mathlib.Data.List.Nodup
import Newsdeck.Library.Refinement
import Newsdeck.Workflows.NextIssue

/-!
# The lifecycle of an issue

An issue is ready, in progress, in review, blocked, or none of these, and may be blocked where it
stands; the store knows labels only.  The jobs of the workflows move issues from one stage to
another, each at most the one it is about.

* `Stage`, `Turn` — the lifecycle, and how a completed run moves it;
* `markIssue` — what the gate makes of the issue that a pull request closes;
* `OnBoard` — the labels in the store stand for the stages;
* `history_turns` — **in every sequence of completed runs the labels stand for stages of the
  lifecycle**, and each run moves the board by one turn.
-/

namespace Newsdeck.Workflows

open Ecma Effects Effects.Prog Loop Runner

/-! ### The gate's label -/

/-- The labels of a family that are there and are not the target are removed one after the other. -/
def removeStale (number : ℕ) (target : Text) (current : List Text) : List Text → Script Unit
  | [] => .ret ()
  | stale :: family => do
      if stale ≠ target ∧ stale ∈ current then removeLabel number stale
      removeStale number target current family

def relabel (number : ℕ) (family : List Text) (target : Text) (current : List Text) :
    Script Unit := do
  removeStale number target current family
  if target ∉ current then addLabels number [target]

/-- Lifecycle label on the linked issue. -/
def markIssue (linked : Option ℕ) (decision : GateDecision) : Script Unit :=
  match linked with
  | none => .ret ()
  | some number => do
      let issue ← getIssue number
      relabel number lifecycle (if decision = .blocked then blocked else review) issue.labels

section Relabel

variable {number : ℕ} {s : List IssueSummary} {state : IssueState} {P : Text → Prop}
    {label target : Text}
  {current : List Text}

/-- Taking a label off that is there. -/
theorem ensures_removeLabel {post : Unit → List IssueSummary → Prop}
    (hs : Has number (Carries state P) s)
    (hlabel : P label) (h : ∀ t, Has number (Carries state fun other => P other ∧ other ≠ label) t →
      post () t) :
    Ensures (Alone number) (fun _ => True) (fun _ _ => False)
      (removeLabel number label) s post := by
  refine ensures_call trivial fun answer t hstep => ?_
  obtain ⟨u, hothers, hcalm, hremoved⟩ := hstep
  have hu := hs.untouched hothers
  have hthere : label ∈ labelsOf u number := by
    obtain ⟨issue, hfound, hissue⟩ := hu
    unfold labelsOf
    rw [hfound]
    exact (hissue.2 label).mpr hlabel
  obtain rfl : answer = .ok () := hcalm hthere
  obtain rfl : t = changeIssue number (takeLabel label) u := hremoved.2
  exact ensures_ret (h _ (has_changeIssue (fun _ => rfl) (fun _ hissue => hissue.take) hu))

theorem Has.congr {Q : Text → Prop} (h : Has number (Carries state P) s)
    (hPQ : ∀ label, P label ↔ Q label) :
    Has number (Carries state Q) s := by
  obtain ⟨issue, hfound, hstate, hlabels⟩ := h
  exact ⟨issue, hfound, hstate, fun label => (hlabels label).trans (hPQ label)⟩

theorem removeStale_carries (family : List Text) : ∀ s P, family.Nodup →
    Has number (Carries state P) s →
    (∀ label ∈ family, label ∈ current ↔ P label) →
      Ensures (Alone number) (fun _ => True) (fun _ _ => False)
        (removeStale number target current family) s
        fun _ => Has number (Carries state fun label => P label ∧
          (label ∈ family → label = target)) := by
  induction family with
  | nil => exact fun s P _ hs _ => ensures_ret (hs.congr fun label => by simp)
  | cons stale family ih =>
    intro s P hnodup hs hcurrent
    obtain ⟨hstale, hnodup⟩ := List.nodup_cons.mp hnodup
    have hthere : stale ∈ current ↔ P stale := hcurrent stale List.mem_cons_self
    have hrest : ∀ label ∈ family, label ∈ current ↔ P label :=
      fun label hlabel => hcurrent label (List.mem_cons_of_mem _ hlabel)
    unfold removeStale
    split
    · rename_i hremoved
      refine ensures_bind (ensures_removeLabel hs (hthere.mp hremoved.2) fun t ht => ?_)
      refine (ih t _ hnodup ht fun label hlabel => ?_).weaken fun _ u hu => hu.congr fun label => ?_
      · have hother : label ≠ stale := fun hsame => hstale (hsame ▸ hlabel)
        rw [hrest label hlabel]
        exact (and_iff_left hother).symm
      · constructor
        · rintro ⟨⟨hP, hne⟩, htarget⟩
          exact ⟨hP, fun h => htarget ((List.mem_cons.mp h).resolve_left hne)⟩
        · rintro ⟨hP, htarget⟩
          refine ⟨⟨hP, fun hsame => ?_⟩, fun h => htarget (List.mem_cons_of_mem _ h)⟩
          exact hremoved.1 (hsame ▸ htarget (List.mem_cons.mpr (.inl hsame)))
    · rename_i hkept
      refine (ih s P hnodup hs hrest).weaken fun _ u hu => hu.congr fun label => ?_
      constructor
      · rintro ⟨hP, htarget⟩
        refine ⟨hP, fun h => ?_⟩
        rcases List.mem_cons.mp h with rfl | h
        · by_contra hne
          exact hkept ⟨hne, hthere.mpr hP⟩
        · exact htarget h
      · rintro ⟨hP, htarget⟩
        exact ⟨hP, fun h => htarget (List.mem_cons_of_mem _ h)⟩

theorem relabel_carries {family : List Text} (hnodup : family.Nodup)
    (hs : Has number (Carries state P) s) (hcurrent : ∀ label, label ∈ current ↔ P label) :
    Ensures (Alone number) (fun _ => True) (fun _ _ => False)
      (relabel number family target current) s
      fun _ => Has number (Carries state fun label => (P label ∧ label ∉ family) ∨
        label = target) := by
  refine ensures_bind
    ((removeStale_carries family s P hnodup hs fun label _ => hcurrent label).weaken
    fun _ t ht => ?_)
  split
  · refine ensures_giveLabel ht fun u hu => show Has number _ u from hu.congr fun label => ?_
    by_cases hsame : label = target
    · simp [hsame]
    · simp [hsame]
  · rename_i hthere
    have htarget : P target := (hcurrent target).mp (not_not.mp hthere)
    refine ensures_ret (ht.congr fun label => ?_)
    by_cases hsame : label = target
    · simp [hsame, htarget]
    · simp [hsame]

/-- The gate leaves just one label of the lifecycle. -/
theorem markIssue_carries {issue : IssueSummary} {decision : GateDecision}
    (hs : Has number (Carries issue.state (· ∈ issue.labels)) s) :
    Ensures (Alone number) (fun _ => True) (fun _ _ => False) (markIssue (some number) decision) s
      fun _ => Has number (Carries issue.state fun label =>
        (label ∈ issue.labels ∧ label ∉ lifecycle) ∨
        label = if decision = .blocked then blocked else review) := by
  refine ensures_bind (ensures_getIssue hs fun found t hfound ht => ?_)
  exact relabel_carries (by decide) ht hfound.2

end Relabel

/-! ### What a job leaves alone -/

/-- At most the issue is changed. -/
def Within (number : ℕ) (op : ApiOp) : Prop :=
  (∀ issue, op ≠ .editIssue issue) ∧ ∀ other f, change op = some (other, f) → other = number

/-- Nothing fails that has what it needs, and nobody else acts. -/
def Calmly (s : List IssueSummary) (event : ApiEvent) (t : List IssueSummary) : Prop :=
  Calm s event ∧ apiStep s event t

/-- No other issue has changed its labels, and none has appeared; where the issue is not there,
nothing has changed. -/
structure Beyond (number : ℕ) (s t : List IssueSummary) : Prop where
  labels : ∀ other, other ≠ number → labelsOf t other = labelsOf s other
  absent : ¬ Present number s → t = s
  present : ∀ other, Present other t → Present other s
  distinct : Distinct s → Distinct t

section Within

variable {number other : ℕ} {s t : List IssueSummary} {trace : List ApiEvent}

theorem Beyond.refl : Beyond number s s := ⟨fun _ _ => rfl, fun _ => rfl, fun _ => id, id⟩

theorem Beyond.trans {u : List IssueSummary} (h : Beyond number s t) (h' : Beyond number t u) :
    Beyond number s u where
  labels other hother := (h'.labels other hother).trans (h.labels other hother)
  absent hnone := by
    have hsame := h.absent hnone
    subst hsame
    exact h'.absent hnone
  present other hu := h.present other (h'.present other hu)
  distinct hs := h'.distinct (h.distinct hs)

theorem changeIssue_absent {f : IssueSummary → IssueSummary} (h : ¬ Present number s) :
    changeIssue number f s = s := by
  have hnone : ∀ issue ∈ s, issue.number ≠ number := by
    intro issue hissue hnumber
    exact h (List.find?_isSome.mpr ⟨issue, hissue, by simpa using hnumber⟩)
  unfold changeIssue
  conv_rhs => rw [← List.map_id s]
  exact List.map_congr_left fun issue hissue => if_neg (hnone issue hissue)

theorem step_within {event : ApiEvent} (h : apiStep s event t) (hwithin : Within number event.op) :
    Beyond number s t := by
  rcases step_cases h with rfl | ⟨changed, f, hop, rfl⟩ | ⟨issue, hop, -⟩
  · exact .refl
  · obtain rfl : changed = number := hwithin.2 changed f hop
    have hf : ∀ issue : IssueSummary, issue.number = changed → (f issue).number = changed :=
      fun issue hissue => (change_number hop issue).trans hissue
    refine ⟨fun other hother => ?_, changeIssue_absent, fun other => (present_changeIssue hf).mp,
      distinct_changeIssue hf⟩
    rw [labelsOf_changeIssue hf, if_neg hother]
  · exact absurd hop (hwithin.1 issue)

theorem steps_within (h : Steps Calmly s trace t)
    (hwithin : ∀ event ∈ trace, Within number event.op) :
    Beyond number s t := by
  induction h with
  | nil => exact .refl
  | @cons s m t event trace first rest ih =>
    have hfirst := step_within first.2 (hwithin event List.mem_cons_self)
    exact hfirst.trans (ih fun e he => hwithin e (List.mem_cons_of_mem _ he))

/-- However a part of a job ends. -/
theorem ensures_beyond {α : Type} {p : Script α} (hp : p.Emits (Within number))
    (s : List IssueSummary) :
    Ensures Calmly (Beyond number s) (fun _ => Beyond number s) p s fun _ => Beyond number s := by
  intro trace outcome t hrun hsteps
  have hbeyond := steps_within hsteps (run_emits hrun hp)
  cases outcome with
  | returned a => exact hbeyond
  | threw message => exact hbeyond
  | interrupted => exact hbeyond

theorem within_of_changes {op : ApiOp} {f : IssueSummary → IssueSummary}
    (hedit : ∀ issue, op ≠ .editIssue issue)
    (h : change op = some (number, f)) : Within number op := by
  refine ⟨hedit, fun other g hop => ?_⟩
  rw [h] at hop
  exact (Prod.mk.inj (Option.some.inj hop)).1.symm

theorem within_of_change {op : ApiOp} (hedit : ∀ issue, op ≠ .editIssue issue)
    (h : change op = none) :
    Within number op :=
  ⟨hedit, fun _ _ hop => by rw [h] at hop; cases hop⟩

theorem getIssue_within : (getIssue other).Emits (Within number) :=
  ⟨within_of_change (by simp) rfl, fun answer => emits_raise answer⟩

theorem createComment_within {body : Text} : (createComment other body).Emits (Within number) :=
  ⟨within_of_change (by simp) rfl, fun answer => emits_raise answer⟩

theorem addLabels_within {labels : List Text} : (addLabels number labels).Emits (Within number) :=
  ⟨within_of_changes (by simp) rfl, fun answer => emits_raise answer⟩

theorem removeLabel_within {label : Text} : (removeLabel number label).Emits (Within number) :=
  ⟨within_of_changes (by simp) rfl, fun answer => emits_raise answer⟩

theorem claimStep_within (request : Request) : (claimStep request).Emits
    (Within request.issueNumber) := by
  cases request with
  | fix pullRequest attempt => trivial
  | implement number =>
    have hconfirm : (confirm number).Emits (Within number) := by
      refine emits_bind getIssue_within fun after => ?_
      split
      · trivial
      · trivial
    have hclaim : (claim number).Emits (Within number) := by
      refine emits_bind getIssue_within fun before => ?_
      split_ifs
      · trivial
      · trivial
      · trivial
      · refine emits_bind addLabels_within fun _ => ?_
        exact emits_bind (emits_attempt removeLabel_within) fun _ => hconfirm
      · trivial
    refine emits_bind (emits_attempt hclaim) fun result => ?_
    split
    · trivial
    · trivial

theorem producedStep_within (request : Request) : (producedStep request).Emits (Within number) := by
  cases request with
  | fix pullRequest attempt => trivial
  | implement issue =>
    have hlist : listBranches.Emits (Within number) :=
      ⟨within_of_change (by simp) rfl, fun answer => emits_raise answer⟩
    refine emits_bind (emits_attempt hlist) fun names => ?_
    split
    · trivial
    · trivial

theorem afterwards_within {context : Context} {request : Request} (agent : Option AgentResult) :
    (afterwards context request agent).Emits (Within request.issueNumber) := by
  refine emits_bind (producedStep_within request) fun produced => ?_
  split
  · refine emits_bind (emits_attempt (emits_bind createComment_within fun _ => ?_)) fun _ => trivial
    exact emits_bind addLabels_within fun _ => emits_bind (emits_attempt removeLabel_within)
      fun _ => trivial
  · trivial

/-- A run of the dispatch changes its issue. -/
theorem dispatch_within (context : Context) (request : Request) :
    (dispatch context true request).Emits (Within request.issueNumber) := by
  have hsteps : ∀ claimed, (agentSteps context request claimed).Emits
      (Within request.issueNumber) := by
    intro claimed
    cases claimed with
    | false => exact afterwards_within none
    | true => exact ⟨within_of_change (by simp) rfl, fun result => afterwards_within (some result)⟩
  refine emits_bind ⟨within_of_change (by simp) rfl, fun _ => trivial⟩ fun prepared => ?_
  split
  · exact emits_bind (claimStep_within request) hsteps
  · exact hsteps false

/-- Without an agent there is a comment. -/
theorem unavailable_within (context : Context) (request : Request) :
    (dispatch context false request).Emits (Within number) :=
  emits_bind (emits_attempt createComment_within) fun _ => trivial

theorem removeStale_within {target : Text} {current : List Text} (family : List Text) :
    (removeStale number target current family).Emits (Within number) := by
  induction family with
  | nil => trivial
  | cons stale family ih =>
    unfold removeStale
    split
    · exact emits_bind removeLabel_within fun _ => ih
    · exact ih

theorem relabel_within {family current : List Text} {target : Text} :
    (relabel number family target current).Emits (Within number) := by
  refine emits_bind (removeStale_within family) fun _ => ?_
  split
  · exact addLabels_within
  · trivial

/-- The gate changes the issue that is linked. -/
theorem markIssue_within (decision : GateDecision) :
    (markIssue (some number) decision).Emits (Within number) :=
  emits_bind getIssue_within fun _ => relabel_within

theorem removeLabels_within (labels : List Text) :
    (removeLabels number labels).Emits (Within number) := by
  induction labels with
  | nil => trivial
  | cons label labels ih => exact emits_bind (emits_attempt removeLabel_within) fun _ => ih

/-- Closing out changes the issue that has been shipped. -/
theorem shipIssue_within : (shipIssue number).Emits (Within number) := by
  refine emits_bind (emits_attempt (emits_bind getIssue_within fun issue => ?_))
    fun _ => removeLabels_within lifecycle
  split
  · exact ⟨within_of_changes (by simp) rfl, fun answer => emits_raise answer⟩
  · trivial

theorem selectNext_within {fallback : OrderedMap ℕ (List ℕ)} {dispatchAgent : Bool} :
    (selectNext fallback dispatchAgent).Emits (Within number) := by
  refine emits_bind ⟨within_of_change (by simp) rfl, fun answer => emits_raise answer⟩
    fun issues => ?_
  split
  · trivial
  · split
    · exact ⟨within_of_change (by simp) rfl, fun answer => emits_raise answer⟩
    · trivial

end Within

/-! ### The lifecycle -/

/-- Where an issue is.  A run that can not be set up blocks an issue that stays ready, and one for
an issue in review blocks it there. -/
inductive Stage where
  | idle
  | ready
  | inProgress
  | review
  | blocked
  | readyBlocked
  | reviewBlocked
  deriving DecidableEq, Repr

namespace Stage

def labels : Stage → List Text
  | idle => []
  | ready => [Workflows.ready]
  | inProgress => [Workflows.inProgress]
  | review => [Workflows.review]
  | blocked => [Workflows.blocked]
  | readyBlocked => [Workflows.ready, Workflows.blocked]
  | reviewBlocked => [Workflows.review, Workflows.blocked]

/-- After a run that has not claimed the issue. -/
def reported : Stage → Stage
  | ready => readyBlocked
  | readyBlocked => readyBlocked
  | review => reviewBlocked
  | reviewBlocked => reviewBlocked
  | _ => blocked

/-- What the gate makes of it. -/
def judged (decision : GateDecision) : Stage := if decision = .blocked then blocked else review

/-- These labels stand for the stage. -/
def Shown (stage : Stage) (found : List Text) : Prop :=
  ∀ label ∈ lifecycle, label ∈ found ↔ label ∈ stage.labels

instance (stage : Stage) (found : List Text) : Decidable (stage.Shown found) :=
  inferInstanceAs (Decidable (∀ label ∈ lifecycle, label ∈ found ↔ label ∈ stage.labels))

/-- A stage with the first label and without the others is the ready one. -/
theorem eq_ready {stage : Stage} (hready : Workflows.ready ∈ stage.labels)
    (hblocked : Workflows.blocked ∉ stage.labels) : stage = ready := by
  cases stage with
  | ready => rfl
  | readyBlocked => exact absurd (by decide) hblocked
  | _ => exact absurd hready (by decide)

theorem mem_reported (stage : Stage) : ∀ label ∈ lifecycle,
    ((label ∈ stage.labels ∨ label = Workflows.blocked) ∧ label ≠ Workflows.inProgress) ↔
      label ∈ stage.reported.labels := by
  cases stage with
  | idle => decide
  | ready => decide
  | inProgress => decide
  | review => decide
  | blocked => decide
  | readyBlocked => decide
  | reviewBlocked => decide

end Stage

/-- The jobs, and people who edit an issue. -/
inductive LoopCall where
  | dispatch (context : Context) (available : Bool) (request : Request)
  | mark (linked : Option ℕ) (decision : GateDecision)
  | next (fallback : OrderedMap ℕ (List ℕ)) (dispatchAgent : Bool)
  | edit (issue : IssueSummary)

def LoopCall.program : LoopCall → Script Unit
  | dispatch context available request => Workflows.dispatch context available request
  | mark linked decision => markIssue linked decision
  | next fallback dispatchAgent => nextIssue fallback dispatchAgent
  | edit issue => .call (.editIssue issue) fun _ => .ret ()

/-- People leave an issue at some stage. -/
def LoopCall.Allowed : LoopCall → Prop
  | edit issue => issue.number ≠ 0 ∧ ∃ stage : Stage, stage.Shown issue.labels
  | _ => True

abbrev Board := ℕ → Stage

/-- How a completed run moves an issue. -/
inductive Turn (board : Board) : LoopCall → Board → Prop
  | rest (call : LoopCall) : Turn board call board
  | claimed (context : Context) {number : ℕ} (h : board number = .ready) :
      Turn board (.dispatch context true (.implement number))
        (Function.update board number .inProgress)
  | failed (context : Context) {number : ℕ} (h : board number = .ready) :
      Turn board (.dispatch context true (.implement number))
        (Function.update board number .blocked)
  | reported (context : Context) (number : ℕ) :
      Turn board (.dispatch context true (.implement number))
        (Function.update board number (board number).reported)
  | judged (number : ℕ) (decision : GateDecision) :
      Turn board (.mark (some number) decision) (Function.update board number (.judged decision))
  | shipped (fallback : OrderedMap ℕ (List ℕ)) (dispatchAgent : Bool) (number : ℕ) :
      Turn board (.next fallback dispatchAgent) (Function.update board number .idle)
  | edited {issue : IssueSummary} {stage : Stage} (h : stage.Shown issue.labels) :
      Turn board (.edit issue) (Function.update board issue.number stage)

/-- The labels stand for the stages; each issue is there once, and numbers begin with 1. -/
structure OnBoard (board : Board) (s : List IssueSummary) : Prop where
  shown : ∀ number, (board number).Shown (labelsOf s number)
  distinct : Distinct s
  numbered : ¬ Present 0 s

section Turns

/-- A run of the call may end so. -/
def Moves (board : Board) (call : LoopCall) (t : List IssueSummary) : Prop :=
  ∃ board', OnBoard board' t ∧ Turn board call board'

variable {board : Board} {number : ℕ} {s t : List IssueSummary} {stage : Stage} {state : IssueState}
    {P : Text → Prop}
  {trace : List ApiEvent} {outcome : Outcome Text Unit}

theorem OnBoard.update (h : OnBoard board s) (hbeyond : Beyond number s t)
    (hstage : stage.Shown (labelsOf t number)) :
      OnBoard (Function.update board number stage) t := by
  refine ⟨fun other => ?_, hbeyond.distinct h.distinct,
    fun hzero => h.numbered (hbeyond.present 0 hzero)⟩
  rcases eq_or_ne other number with rfl | hother
  · rwa [Function.update_self]
  · rw [Function.update_of_ne hother, hbeyond.labels other hother]
    exact h.shown other

theorem Has.mem_labelsOf {label : Text} (h : Has number (Carries state P) t) :
    label ∈ labelsOf t number ↔ P label := by
  obtain ⟨issue, hfound, hissue⟩ := h
  unfold labelsOf
  rw [hfound]
  exact hissue.2 label

theorem Has.shown (h : Has number (Carries state P) t)
    (hP : ∀ label ∈ lifecycle, P label ↔ label ∈ stage.labels) :
    stage.Shown (labelsOf t number) :=
  fun label hlabel => h.mem_labelsOf.trans (hP label hlabel)

/-- An issue that is there, with the labels of its stage. -/
theorem OnBoard.has (h : OnBoard board s) (hpresent : Present number s) : ∃ issue : IssueSummary,
    Has number (Carries issue.state (· ∈ issue.labels)) s ∧ (board number).Shown issue.labels := by
  obtain ⟨issue, hfound⟩ := Option.isSome_iff_exists.mp hpresent
  refine ⟨issue, ⟨issue, hfound, rfl, fun _ => Iff.rfl⟩, ?_⟩
  have hshown := h.shown number
  unfold labelsOf at hshown
  rwa [hfound] at hshown

theorem alone_of_calmly (h : Steps Calmly s trace t) : Steps (Alone number) s trace t :=
  h.map id fun s _ _ hstep => ⟨s, rfl, hstep⟩

theorem implement_turns (h : OnBoard board s) {context : Context}
    (hrun : Run (dispatch context true (.implement number)) trace outcome)
    (hended : outcome.ended = true) (hsteps : Steps Calmly s trace t) :
    Moves board (.dispatch context true (.implement number)) t := by
  have hbeyond : Beyond number s t :=
    steps_within hsteps (run_emits hrun (dispatch_within context (.implement number)))
  by_cases hpresent : Present number s
  · obtain ⟨issue, hissue, hshown⟩ := h.has hpresent
    have hmem : ∀ label ∈ lifecycle, label ∈ issue.labels ↔ label ∈ (board number).labels := hshown
    have hfree : Free issue → board number = .ready := by
      rintro ⟨-, hready, -, hblocked⟩
      exact Stage.eq_ready ((hmem _ (by decide)).mp hready)
        fun h => hblocked ((hmem _ (by decide)).mpr h)
    have hcarried := dispatch_carries hissue hrun hended (alone_of_calmly hsteps)
    rcases hcarried with ⟨hclaimed, hdone | hfailed⟩ | ⟨-, hreported⟩
    · have hready := hfree hclaimed
      refine ⟨_, h.update hbeyond (hdone.2.shown fun label hlabel => ?_), .claimed context hready⟩
      rw [hmem label hlabel, hready]
      revert label
      decide
    · have hready := hfree hclaimed
      refine ⟨_, h.update hbeyond (hfailed.shown fun label hlabel => ?_), .failed context hready⟩
      beta_reduce
      rw [hmem label hlabel, hready]
      revert label
      decide
    · refine ⟨_, h.update hbeyond (hreported.shown fun label hlabel => ?_),
        .reported context number⟩
      beta_reduce
      rw [hmem label hlabel]
      exact (board number).mem_reported label hlabel
  · obtain rfl := hbeyond.absent hpresent
    exact ⟨board, h, .rest _⟩

theorem mark_turns (h : OnBoard board s) {decision : GateDecision}
    (hrun : Run (markIssue (some number) decision) trace outcome) (hended : outcome.ended = true)
    (hsteps : Steps Calmly s trace t) :
    Moves board (.mark (some number) decision) t := by
  have hbeyond := steps_within hsteps (run_emits hrun (markIssue_within decision))
  by_cases hpresent : Present number s
  · obtain ⟨issue, hissue, -⟩ := h.has hpresent
    obtain ⟨done, -, hmarked⟩ :=
      (markIssue_carries hissue).ended hrun hended (alone_of_calmly hsteps)
    refine ⟨_, h.update hbeyond (hmarked.shown fun label hlabel => ?_), .judged number decision⟩
    unfold Stage.judged
    split
    · simp [hlabel, Stage.labels]
    · simp [hlabel, Stage.labels]
  · obtain rfl := hbeyond.absent hpresent
    exact ⟨board, h, .rest _⟩

/-- A part of the job that leaves the issues alone. -/
theorem OnBoard.still {α : Type} {p : Script α} (h : OnBoard board s) (hp : p.Emits (Within 0)) :
    Ensures Calmly (fun t => t = s) (fun _ t => t = s) p s fun _ t => t = s :=
  (ensures_beyond hp s).mono (fun _ _ hb => hb.absent h.numbered)
    (fun _ _ hb => hb.absent h.numbered)
    fun _ hb => hb.absent h.numbered

theorem ship_turns (h : OnBoard board s) (fallback : OrderedMap ℕ (List ℕ)) (dispatchAgent : Bool) :
    Ensures Calmly (fun _ => True) (fun _ => Moves board (.next fallback dispatchAgent))
      (shipIssue number) s
      fun _ => Moves board (.next fallback dispatchAgent) := by
  by_cases hpresent : Present number s
  · have hshipped : Ensures Calmly (fun _ => True) (fun _ _ => False) (shipIssue number) s
        fun _ t => Listed number t ∧ Shipped number t :=
      (shipIssue_ships ⟨h.distinct, hpresent⟩).within id
        fun s _ _ hstep => ⟨s, ⟨id, id, id, fun _ _ => id⟩, hstep⟩
    refine (hshipped.and (ensures_beyond shipIssue_within s)).mono ?_ (fun _ _ hb => hb.1.elim)
      fun _ _ => trivial
    rintro - t ⟨⟨-, hclosed⟩, hbeyond⟩
    refine ⟨_, h.update hbeyond fun label hlabel => ?_, .shipped fallback dispatchAgent number⟩
    exact iff_of_false (hclosed.2 label hlabel) List.not_mem_nil
  · have hrest : ∀ t, Beyond number s t → Moves board (.next fallback dispatchAgent) t := by
      intro t hb
      obtain rfl := hb.absent hpresent
      exact ⟨board, h, .rest _⟩
    exact (ensures_beyond shipIssue_within s).mono (fun _ t => hrest t) (fun _ t => hrest t)
      fun _ _ => trivial

theorem next_turns (h : OnBoard board s) (fallback : OrderedMap ℕ (List ℕ)) (dispatchAgent : Bool) :
    Ensures Calmly (fun _ => True) (fun _ => Moves board (.next fallback dispatchAgent))
      (nextIssue fallback dispatchAgent) s fun _ => Moves board (.next fallback dispatchAgent) := by
  have hrest : Moves board (.next fallback dispatchAgent) s := ⟨board, h, .rest _⟩
  have hselect : ∀ t, Moves board (.next fallback dispatchAgent) t →
      Ensures Calmly (fun _ => True) (fun _ => Moves board (.next fallback dispatchAgent))
        (selectNext fallback dispatchAgent) t fun _ =>
          Moves board (.next fallback dispatchAgent) := by
    rintro t ⟨board', h', hturn⟩
    refine (h'.still selectNext_within).mono ?_ ?_ fun _ _ => trivial
    · rintro - _ rfl
      exact ⟨board', h', hturn⟩
    · rintro - _ rfl
      exact ⟨board', h', hturn⟩
  refine ensures_bind (ensures_call trivial fun prepared t hstep => ensures_ret ?_)
  obtain rfl : t = s := hstep.2
  split
  · refine ensures_bind (ensures_bind (ensures_call trivial fun answer t hstep => ?_))
    obtain rfl : t = _ := hstep.2
    refine ensures_raise (fun pulls _ => ?_) fun _ _ => hrest
    split
    · exact ensures_ret (hselect _ hrest)
    · exact (ship_turns h fallback dispatchAgent).weaken fun _ t ht => hselect t ht
  · exact ensures_ret hrest

/-- What people leave behind. -/
theorem edit_turns (h : OnBoard board s) {issue : IssueSummary} (hnumber : issue.number ≠ 0)
    (hstage : stage.Shown issue.labels) : Moves board (.edit issue) (putIssue issue s) := by
  refine ⟨_, ⟨fun other => ?_, distinct_putIssue h.distinct, fun hzero => ?_⟩, .edited hstage⟩
  · rcases eq_or_ne other issue.number with rfl | hother
    · rwa [Function.update_self, labelsOf_putIssue, if_pos rfl]
    · rw [Function.update_of_ne hother, labelsOf_putIssue, if_neg hother]
      exact h.shown other
  · exact h.numbered (present_of_putIssue hnumber.symm hzero)

/-- **One run.** -/
theorem call_turns (h : OnBoard board s) {call : LoopCall} (hallowed : call.Allowed)
    (hrun : Run call.program trace outcome) (hended : outcome.ended = true)
    (hsteps : Steps Calmly s trace t) :
    Moves board call t := by
  -- what asks for no change leaves everything as it is
  have hrest : call.program.Emits (Within 0) → Moves board call t := by
    intro hwithin
    obtain rfl := (steps_within hsteps (run_emits hrun hwithin)).absent h.numbered
    exact ⟨board, h, .rest _⟩
  cases call with
  | dispatch context available request =>
    cases available with
    | false => exact hrest (unavailable_within context request)
    | true =>
      cases request with
      | implement number => exact implement_turns h hrun hended hsteps
      | fix pullRequest attempt => exact hrest (dispatch_within context (.fix pullRequest attempt))
  | mark linked decision =>
    cases linked with
    | none => exact hrest trivial
    | some number => exact mark_turns h hrun hended hsteps
  | next fallback dispatchAgent =>
    have hmeets := next_turns h fallback dispatchAgent trace outcome t hrun hsteps
    cases outcome with
    | returned done => exact hmeets
    | threw message => exact hmeets
    | interrupted => cases hended
  | edit issue =>
    obtain ⟨hnumber, stage, hstage⟩ := hallowed
    cases hrun with
    | interrupt => cases hended
    | call _ _ answer rest _ hrest =>
      cases hrest
      cases hsteps with
      | cons first hnil =>
        cases hnil
        obtain rfl := first.2
        exact edit_turns h hnumber hstage

end Turns

/-- **In every sequence of completed runs the labels stand for stages**, and each run moves the
board by one turn. -/
theorem history_turns {board : Board} {start s : List IssueSummary}
    {made : List (Made LoopCall ApiOp ApiOp.Answer Text Unit)}
    (h : History Calmly LoopCall.program start made s)
    (hmade : ∀ m ∈ made, m.call.Allowed ∧ m.outcome.ended = true) (hstart : OnBoard board start) :
    ∃ board', OnBoard board' s ∧ Path Turn board (made.map Made.call) board' := by
  induction h with
  | nil => exact ⟨board, hstart, .nil⟩
  | @snoc made s t before call trace outcome run steps ih =>
    obtain ⟨middle, hmiddle, hpath⟩ := ih fun m hm => hmade m (List.mem_append_left _ hm)
    obtain ⟨hallowed, hended⟩ := hmade ⟨call, trace, outcome⟩ (by simp)
    obtain ⟨last, hlast, hturn⟩ := call_turns hmiddle hallowed run hended steps
    refine ⟨last, hlast, ?_⟩
    rw [List.map_append]
    exact hpath.snoc hturn

/-- An issue is marked, implemented, judged and shipped. -/
def lifeCalls : List LoopCall :=
  [.edit ⟨7, lit "Seven", .opened, [ready], none⟩, .dispatch atWork true (.implement 7),
    .mark (some 7) .autoMerge, .next [] true]

def lifetime : List (Made LoopCall ApiOp ApiOp.Answer Text Unit) × List IssueSummary :=
  playAll LoopCall.program (lifeCalls.map fun call =>
    (call, answerApi ⟨true, [], []⟩ [lit "agent/issue-7-x"] [⟨40, true, some (lit "Closes #7")⟩]))
      twoIssues

theorem history_turns_lifetime : ∃ board, OnBoard board lifetime.2 ∧
    Path Turn (fun number => if number = 8 then .review else .idle)
      (lifetime.1.map Made.call) board := by
  have hstart : OnBoard (fun number => if number = 8 then .review else .idle) twoIssues := by
    refine ⟨fun number => ?_, by decide, by decide⟩
    by_cases hseven : number = 7
    · subst hseven
      decide
    · by_cases height : number = 8
      · subst height
        decide
      · have hnone : labelsOf twoIssues number = [] := by
          simp [labelsOf, twoIssues, Ne.symm hseven, Ne.symm height]
        rw [hnone, if_neg height]
        exact fun label _ => Iff.rfl
  have hhistory : History Calmly LoopCall.program twoIssues ([] ++ lifetime.1) lifetime.2 := by
    refine history_playAll id _ [] twoIssues .nil fun call hcall s op answer t h => ?_
    obtain ⟨call, -, rfl⟩ := List.mem_map.mp hcall
    exact calm_answerApi h
  have hcalls : lifetime.1.map Made.call = lifeCalls := rfl
  have hended : lifetime.1.all (fun m => m.outcome.ended) = true := by decide +kernel
  have hallowed : ∀ call ∈ lifeCalls, call.Allowed := by
    refine List.forall_mem_cons.mpr ⟨⟨by decide, .ready, by decide⟩, fun call hcall => ?_⟩
    cases call with
    | edit issue => simp at hcall
    | _ => trivial
  exact history_turns hhistory (fun m hm => ⟨hallowed _ (hcalls ▸ List.mem_map_of_mem hm),
    List.all_eq_true.mp hended m hm⟩) hstart

end Newsdeck.Workflows

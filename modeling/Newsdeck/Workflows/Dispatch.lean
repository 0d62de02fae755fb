import Newsdeck.Library.Histories
import Newsdeck.Library.Precedence
import Newsdeck.Workflows.Issues

/-!
# The dispatch of the coding agent

One run of `loop-agent-dispatch` claims an issue and lets the coding agent work on it.  A run fails
at its first step that fails; the steps after the agent run always.

* `dispatch` — the job;
* `dispatch_asks` — an agent is run only after a claim, and a claim is made only of an issue that is
  free;
* `dispatch_leaves` — **a run that does not end well leaves the issue blocked, and not in
  progress**.
-/

namespace Newsdeck.Workflows

open Ecma Effects Effects.Prog Loop

structure Context where
  serverUrl : Text
  /-- `owner/name`. -/
  repository : Text
  runId : Text

def getIssue (number : ℕ) : Script IssueSummary := .call (.getIssue number) raise
def addLabels (number : ℕ) (labels : List Text) : Script Unit :=
  .call (.addLabels number labels) raise
def removeLabel (number : ℕ) (label : Text) : Script Unit := .call (.removeLabel number label) raise
def createComment (number : ℕ) (body : Text) : Script Unit :=
  .call (.createComment number body) raise
def listBranches : Script (List Text) := .call .listBranches raise
def setUp : Script Bool := .call .setUp .ret

/-! ### The request -/

namespace Request

/-- `process.env.ISSUE || process.env.PULL_REQUEST`; runs for the same target are not run side by
side. -/
def target : Request → ℕ
  | implement issue => issue
  | fix pullRequest _ => pullRequest

def modeText : Request → Text
  | implement _ => lit "implement"
  | fix _ _ => lit "fix"

def attemptText : Request → Text
  | implement _ => []
  | fix _ attempt => attempt

/-- `Number(process.env.ISSUE)`, which is 0 when no issue is given. -/
def issueNumber : Request → ℕ
  | implement issue => issue
  | fix _ _ => 0

def prompt (context : Context) : Request → Text
  | implement issue => lit "/loop-implement " ++ context.repository ++ lit " " ++ decimal issue
  | fix pullRequest _ => lit "/loop-fix " ++ context.repository ++ lit " " ++ decimal pullRequest

end Request

/-! ### No agent is configured -/

def notDispatched (request : Request) : Text :=
  join (lit "\n") [lit "### Coding agent not dispatched", [],
    lit "The loop reached the point of invoking the coding agent, but this",
    lit "repository has no `CLAUDE_CODE_OAUTH_TOKEN` secret.", [],
    lit "- Mode: `" ++ request.modeText ++ lit "`",
    lit "- Target: #" ++ decimal request.target,
    lit "- Review attempt: " ++
      (if request.attemptText ≠ [] then request.attemptText else lit "n/a"), [],
    lit "**To connect one**, run `claude setup-token` and add the result as the",
    lit "repository secret `CLAUDE_CODE_OAUTH_TOKEN`. That token authenticates",
    lit "with a Claude subscription, so no Anthropic API key is needed. See",
    lit "`docs/loop-engineering.md#fully-unattended-mode`.", [],
    lit "This issue keeps `agent:ready` and is not marked blocked: the",
    lit "secret is missing repository-wide, which says nothing about this",
    lit "issue in particular. Once it is set, the loop picks the issue up",
    lit "with no relabelling.", [],
    lit "Until then, implement the issue by hand. Everything else in the loop —",
    lit "risk classification, review, gates, merge policy, next-issue selection —",
    lit "runs normally on the resulting pull request."]

/-! ### The claim -/

/-- GitHub does not compare before it sets; the issue is read once more. -/
def confirm (number : ℕ) : Script (Except Text Text) := do
  let after ← getIssue number
  if inProgress ∉ after.labels then
    .ret (.error (lit "Could not claim issue #" ++ decimal number ++ lit "."))
  else .ret (.ok after.title)

/-- Claim the issue; an error is the message that the step fails with. -/
def claim (number : ℕ) : Script (Except Text Text) := do
  let before ← getIssue number
  if before.state ≠ .opened then
    .ret (.error (lit "Issue #" ++ decimal number ++ lit " is " ++ before.state.text ++ lit "."))
  else if inProgress ∈ before.labels then
    .ret (.error (lit "Issue #" ++ decimal number ++
      lit " is already claimed (agent:in-progress)."))
  else if blocked ∈ before.labels then
    .ret (.error (lit "Issue #" ++ decimal number ++ lit " is blocked and needs a human."))
  else if ready ∉ before.labels then
    .ret (.error (lit "Issue #" ++ decimal number ++ lit " does not carry agent:ready."))
  else do
    addLabels number [inProgress]
    let _ ← (removeLabel number ready).attempt
    confirm number

/-- The step succeeds; it is left out when a pull request is to be fixed. -/
def claimStep : Request → Script Bool
  | .fix _ _ => .ret true
  | .implement number => do
      match ← (claim number).attempt with
      | .ok (.ok _) => .ret true
      | _ => .ret false

/-! ### What the agent left behind -/

/-- `agent/issue-<n>`, or what begins with that and a hyphen. -/
def isBranchFor (number : ℕ) (name : Text) : Bool :=
  let stem := lit "agent/issue-" ++ decimal number
  name = stem || (stem ++ lit "-").isPrefixOf name

/-- The output of the step; none when it failed or was left out. -/
def producedStep : Request → Script (Option Bool)
  | .fix _ _ => .ret none
  | .implement number => do
      match ← listBranches.attempt with
      | .ok names => .ret (some (names.any (isBranchFor number)))
      | .error _ => .ret none

def notFinished (context : Context) (agent : Option AgentResult) (produced : Option Bool) : Text :=
  let ranDry := agent.any AgentResult.succeeded && produced = some false
  let numbers := (agent.map fun result =>
    (if result.turns ≠ [] then [lit "turns: " ++ result.turns] else []) ++
      (if result.denials ≠ [] then [lit "permission denials: " ++ result.denials] else [])).getD []
  join (lit "\n") ([lit "### Coding agent did not finish", [],
      if ranDry then
        lit "The run ended without error but left no branch, so nothing was implemented. The issue is marked " ++
          lit "`agent:blocked` so the loop moves on to independent work; nothing else waits on it."
      else
        lit "The run ended without success. The issue is marked `agent:blocked` so the loop moves on to " ++
          lit "independent work; nothing else waits on it."] ++
    (if numbers.length > 0 then [[], lit "Agent run: " ++ join (lit ", ") numbers ++ lit "."]
      else []) ++
    [[], lit "[Run log](" ++ context.serverUrl ++ lit "/" ++ context.repository ++
      lit "/actions/runs/" ++ context.runId ++
        lit ") — the agent's own execution log is attached to that run as an artifact."])

def reportFailure (context : Context) (number : ℕ) (agent : Option AgentResult)
    (produced : Option Bool) :
    Script Unit := do
  createComment number (notFinished context agent produced)
  addLabels number [blocked]
  let _ ← (removeLabel number inProgress).attempt
  .ret ()

/-! ### The job -/

def runAgent (context : Context) (request : Request) : Script AgentResult :=
  .call (.runAgent (request.prompt context)) .ret

/-- The steps that are run whatever has failed. -/
def afterwards (context : Context) (request : Request) (agent : Option AgentResult) :
    Script Unit := do
  let produced ← producedStep request
  if agent.any AgentResult.succeeded = false ∨ produced = some false then
    let _ ← (reportFailure context request.issueNumber agent produced).attempt
    .ret ()
  else .ret ()

/-- From the agent's step on; it is left out after a step that failed. -/
def agentSteps (context : Context) (request : Request) (claimed : Bool) : Script Unit :=
  if claimed then do
    let agent ← runAgent context request
    afterwards context request (some agent)
  else afterwards context request none

/-- One run of the workflow.  The inputs are the numbers that the workflows of the loop give it. -/
def dispatch (context : Context) (available : Bool) (request : Request) : Script Unit :=
  if available then do
    let prepared ← setUp
    if prepared then do
      let claimed ← claimStep request
      agentSteps context request claimed
    else agentSteps context request false
  else do
    let _ ← (createComment request.target (notDispatched request)).attempt
    .ret ()

/-! ### What the job asks for -/

/-- The issue may be claimed. -/
def Free (issue : IssueSummary) : Prop :=
  issue.state = .opened ∧ ready ∈ issue.labels ∧ inProgress ∉ issue.labels ∧ blocked ∉ issue.labels

/-- After the events of the log.  The label that marks an issue as ready is taken off once, from an
issue that was seen free, and given to none; and the agent is run once, to implement an issue only
after that. -/
def DispatchAsks (request : Request) (log : List ApiEvent) (op : ApiOp) : Prop :=
  (∀ number, op = .removeLabel number ready → request = .implement number ∧
    (∃ issue, (⟨.getIssue number, .ok issue⟩ : ApiEvent) ∈ log ∧ Free issue) ∧
      ∀ event ∈ log, event.op ≠ .removeLabel number ready) ∧
  (∀ prompt, op = .runAgent prompt → (∀ event ∈ log, ∀ other, event.op ≠ .runAgent other) ∧
    ∀ number, request = .implement number → ∃ event ∈ log, event.op = .removeLabel number ready) ∧
  ∀ number, gives number ready op = false

section Asks

variable {context : Context} {request : Request} {log : List ApiEvent}

/-- What is no claim and no run of the agent. -/
def Other (op : ApiOp) : Prop :=
  (∀ number, op ≠ .removeLabel number ready) ∧ (∀ prompt, op ≠ .runAgent prompt) ∧
    ∀ number, gives number ready op = false

theorem Other.asks {op : ApiOp} (h : Other op) (log : List ApiEvent) :
    DispatchAsks request log op :=
  ⟨fun number hop => absurd hop (h.1 number), fun prompt hop => absurd hop (h.2.1 prompt), h.2.2⟩

theorem other_labels {label : Text} (h : label ≠ ready) (number : ℕ) :
    Other (.addLabels number [label]) ∧ Other (.removeLabel number label) := by
  refine ⟨⟨by simp, by simp, fun other => ?_⟩, ⟨fun other hop => ?_, by simp, fun other => rfl⟩⟩
  · simp [gives, Ne.symm h]
  · injection hop with _ hlabel
    exact h hlabel

theorem inProgress_ne_ready : inProgress ≠ ready ∧ blocked ≠ ready := by decide

theorem afterwards_other (agent : Option AgentResult) :
    (afterwards context request agent).Emits Other := by
  have hplain : ∀ op : ApiOp, (∃ number body, op = .createComment number body) ∨
      op = .listBranches → Other op := by
    rintro _ (⟨number, body, rfl⟩ | rfl)
    · exact ⟨by simp, by simp, fun _ => rfl⟩
    · exact ⟨by simp, by simp, fun _ => rfl⟩
  have hproduced : (producedStep request).Emits Other := by
    cases request with
    | fix pullRequest attempt => trivial
    | implement number =>
      refine emits_bind (emits_attempt ⟨hplain _ (.inr rfl), fun answer => emits_raise answer⟩)
        fun names => ?_
      split
      · trivial
      · trivial
  have hreport : ∀ produced,
      (reportFailure context request.issueNumber agent produced).Emits Other := by
    intro produced
    refine emits_bind ⟨hplain _ (.inl ⟨_, _, rfl⟩), fun answer => emits_raise answer⟩ fun _ => ?_
    refine emits_bind ⟨(other_labels inProgress_ne_ready.2 _).1, fun answer => emits_raise answer⟩
      fun _ => ?_
    refine emits_bind
      (emits_attempt ⟨(other_labels inProgress_ne_ready.1 _).2, fun answer => emits_raise answer⟩)
      fun _ => trivial
  unfold afterwards
  refine emits_bind hproduced fun produced => ?_
  split
  · exact emits_bind (emits_attempt (hreport produced)) fun _ => trivial
  · trivial

theorem afterwards_asks (agent : Option AgentResult) (log : List ApiEvent) :
    EmitsAfter (DispatchAsks request) log (afterwards context request agent) :=
  ((afterwards_other agent).mono fun _ h log => h.asks log).after log

/-- The agent has not been run; and where an issue is to be implemented, the step succeeds only
after a claim. -/
def Claimed (request : Request) (succeeded : Bool) (log : List ApiEvent) : Prop :=
  (∀ event ∈ log, ∀ prompt, event.op ≠ .runAgent prompt) ∧
    (succeeded = true → ∀ number, request = .implement number →
      ∃ event ∈ log, event.op = .removeLabel number ready)

theorem agentSteps_asks {claimed : Bool} (h : Claimed request claimed log) :
    EmitsAfter (DispatchAsks request) log (agentSteps context request claimed) := by
  cases claimed with
  | false => exact afterwards_asks none log
  | true =>
    refine ⟨⟨by simp, fun prompt _ => ⟨h.1, h.2 rfl⟩, fun _ => rfl⟩, fun result => ?_⟩
    exact afterwards_asks (some result) _

/-- A step that fails before the label is taken off. -/
theorem claimed_false (h : ∀ event ∈ log, ∀ prompt, event.op ≠ .runAgent prompt) :
    Claimed request false log :=
  ⟨h, fun hfalse => absurd hfalse (by decide)⟩

theorem confirm_asks {number : ℕ} (hfirst : ∀ event ∈ log, ∀ prompt, event.op ≠ .runAgent prompt)
    (hremoved : ∃ event ∈ log, event.op = .removeLabel number ready) :
    Heeds (DispatchAsks (.implement number))
      (fun _ log => Claimed (.implement number) false log) log
      (confirm number) fun result log => Claimed (.implement number) result.isOk log := by
  have hget : Other (.getIssue number) := ⟨by simp, by simp, fun _ => rfl⟩
  have hclaimed : ∀ again succeeded,
      Claimed (.implement number) succeeded (log ++ [⟨.getIssue number, again⟩]) := by
    refine fun again succeeded => ⟨fun event hevent prompt => ?_, fun _ other hother => ?_⟩
    · rcases List.mem_append.mp hevent with hlog | hlast
      · exact hfirst event hlog prompt
      · rw [List.mem_singleton.mp hlast]
        simp
    · cases hother
      obtain ⟨event, hevent, hop⟩ := hremoved
      exact ⟨event, List.mem_append_left _ hevent, hop⟩
  refine ⟨hget.asks _, fun again => ?_⟩
  cases again with
  | error message => exact hclaimed _ _
  | ok after =>
    show Heeds _ _ _ (if inProgress ∉ after.labels then _ else _) _
    split
    · exact hclaimed _ _
    · exact hclaimed _ _

theorem claim_asks {number : ℕ} (prepared : Bool) :
    Heeds (DispatchAsks (.implement number)) (fun _ log => Claimed (.implement number) false log)
      [⟨.setUp, prepared⟩] (claim number) fun result log =>
        Claimed (.implement number) result.isOk log := by
  have hget : Other (.getIssue number) := ⟨by simp, by simp, fun _ => rfl⟩
  obtain ⟨hadd, -⟩ := other_labels inProgress_ne_ready.1 number
  refine ⟨hget.asks _, fun answer => ?_⟩
  cases answer with
  | error message => exact claimed_false (by simp)
  | ok before =>
    have hrefused : ∀ (message : Text), Claimed (.implement number)
      (Except.isOk (.error message : Except Text Text))
        [⟨.setUp, prepared⟩, ⟨.getIssue number, .ok before⟩] := fun _ => claimed_false (by simp)
    show Heeds _ _ _ (if before.state ≠ .opened then _ else _) _
    split_ifs with hopened hprogress hblocked hready
    · exact hrefused []
    · exact hrefused []
    · exact hrefused []
    · -- the issue is free
      refine ⟨hadd.asks _, fun added => ?_⟩
      cases added with
      | error message => exact claimed_false (by simp)
      | ok done =>
        refine heeds_bind (p := (removeLabel number ready).attempt) (heeds_attempt ?_)
        refine ⟨⟨fun other hop => ?_, by simp, fun _ => rfl⟩, fun removed => ?_⟩
        · injection hop with hother
          subst hother
          exact ⟨rfl, ⟨before, by simp, not_not.mp hopened, hready, hprogress, hblocked⟩, by simp⟩
        · exact heeds_raise (fun _ _ => confirm_asks (by simp) (by simp))
            fun _ _ => confirm_asks (by simp) (by simp)
    · exact hrefused []

theorem claimStep_asks (prepared : Bool) :
    Heeds (DispatchAsks request) (fun _ _ => True) [⟨.setUp, prepared⟩] (claimStep request)
      (Claimed request) := by
  cases request with
  | fix pullRequest attempt => exact ⟨by simp, by simp⟩
  | implement number =>
    refine heeds_bind (heeds_attempt ((claim_asks prepared).mono ?_ ?_))
    · intro result log hclaimed
      cases result with
      | error message => exact hclaimed
      | ok title => exact hclaimed
    · exact fun _ _ hclaimed => hclaimed

/-- Every operation of the job. -/
theorem dispatch_asks (context : Context) (available : Bool) (request : Request) :
    EmitsAfter (DispatchAsks request) [] (dispatch context available request) := by
  have hsetUp : Other .setUp := ⟨by simp, by simp, fun _ => rfl⟩
  have hcomment : ∀ number body, Other (.createComment number body) :=
    fun _ _ => ⟨by simp, by simp, fun _ => rfl⟩
  cases available with
  | false =>
    refine emitsAfter_bind (emitsAfter_attempt ?_) fun _ _ => trivial
    exact ⟨(hcomment _ _).asks _, fun answer => (emits_raise answer).after _⟩
  | true =>
    refine ⟨hsetUp.asks _, fun prepared => ?_⟩
    cases prepared with
    | false => exact agentSteps_asks (claimed_false (by simp))
    | true =>
      have hrest : ∀ claimed log, Claimed request claimed log →
        Heeds (DispatchAsks request) (fun _ _ => True) log
          (agentSteps context request claimed) fun _ _ => True :=
            fun _ _ h => (agentSteps_asks h).heeds
      exact (heeds_bind ((claimStep_asks true).mono hrest fun _ _ h => h)).emitsAfter

end Asks

/-! ### What a run leaves behind -/

/-- What others may do meanwhile: they neither take the issue away nor unblock it, and they do not
claim it. -/
def Spares (number : ℕ) (s u : List IssueSummary) : Prop :=
  (Present number s → Present number u) ∧
    (blocked ∈ labelsOf s number → blocked ∈ labelsOf u number) ∧
    (inProgress ∈ labelsOf u number → inProgress ∈ labelsOf s number)

/-- The agent has ended well, and there is a branch for the issue. -/
def Done (number : ℕ) (log : List ApiEvent) : Prop :=
  (∃ prompt result, (⟨.runAgent prompt, result⟩ : ApiEvent) ∈ log ∧
    AgentResult.succeeded result = true) ∧
    ∃ names, (⟨.listBranches, .ok names⟩ : ApiEvent) ∈ log ∧ names.any (isBranchFor number) = true

/-- The issue is out of the way. -/
def SetAside (number : ℕ) (s : List IssueSummary) : Prop :=
  blocked ∈ labelsOf s number ∧ inProgress ∉ labelsOf s number

section Leaves

variable {context : Context} {number : ℕ} {s : List IssueSummary} {log : List ApiEvent}

abbrev ApiWorld := List IssueSummary × List ApiEvent

theorem around_present {t : List IssueSummary} {event : ApiEvent}
    (h : Around (Spares number) s event t) (hs : Present number s) : Present number t := by
  obtain ⟨u, hspares, -, hstep⟩ := h
  exact step_present hstep (hspares.1 hs)

/-- The issue stays, whatever a part of the job does. -/
theorem ensures_present {α : Type} (p : Script α) (hs : Present number s) :
    Ensures (Noted (Around (Spares number))) (fun _ => True) (fun _ w => Present number w.1) p
      (s, log)
      fun _ w => Present number w.1 := by
  have hkept : Ensures (Noted (Around (Spares number))) (fun w => Present number w.1)
      (fun _ w => Present number w.1) p (s, log) fun _ w => Present number w.1 :=
    ensures_emits _ (emits_true p) (fun op answer w w' _ hw hstep => around_present hstep.1 hw) hs
  exact hkept.mono (fun _ _ h => h) (fun _ _ h => h) fun _ _ => trivial

theorem ensures_createComment {body : Text} {post : Unit → ApiWorld → Prop} (hs : Present number s)
    (h : ∀ t log', Present number t → post () (t, log')) :
    Ensures (Noted (Around (Spares number))) (fun _ => True) (fun _ _ => False)
      (createComment number body)
      (s, log) post := by
  refine ensures_call trivial fun answer w hstep => ?_
  have ht := around_present hstep.1 hs
  obtain ⟨⟨u, hspares, hcalm, -⟩, -⟩ := hstep
  obtain rfl : answer = .ok () := hcalm (hspares.1 hs)
  exact ensures_ret (h w.1 w.2 ht)

theorem ensures_addLabels {label : Text} {post : Unit → ApiWorld → Prop} (hs : Present number s)
    (h : ∀ t log', Present number t → label ∈ labelsOf t number → post () (t, log')) :
    Ensures (Noted (Around (Spares number))) (fun _ => True) (fun _ _ => False)
      (addLabels number [label])
      (s, log) post := by
  refine ensures_call trivial fun answer w hstep => ?_
  have ht := around_present hstep.1 hs
  obtain ⟨⟨u, hspares, hcalm, hadded⟩, -⟩ := hstep
  have hu : Present number u := hspares.1 hs
  obtain rfl : answer = .ok () := hcalm hu
  obtain ⟨t, log'⟩ := w
  obtain rfl : t = changeIssue number (giveLabels [label]) u := hadded
  exact ensures_ret (h _ _ ht ((labelsOf_giveLabels hu).mpr (.inr (by simp))))

/-- Taking off a label that the others do not give, whether it is there or not. -/
theorem ensures_takeProgress {post : Except Text Unit → ApiWorld → Prop}
    (hs : blocked ∈ labelsOf s number)
    (h : ∀ answer t log', SetAside number t → post answer (t, log')) :
    Ensures (Noted (Around (Spares number))) (fun _ => True) (fun _ _ => False)
      (removeLabel number inProgress).attempt (s, log) post := by
  refine ensures_attempt (ensures_call trivial fun answer w hstep => ?_)
  obtain ⟨t, log'⟩ := w
  obtain ⟨⟨u, hspares, hcalm, hremoved⟩, -⟩ := hstep
  have hblocked := hspares.2.1 hs
  have ht : SetAside number t := by
    rcases calm_removeLabel hremoved hcalm with rfl | ⟨rfl, hnone⟩
    · have hother : blocked ≠ inProgress := by decide
      exact ⟨mem_labelsOf_takeLabel.mpr ⟨hblocked, fun h => hother h.2⟩,
        fun h => (mem_labelsOf_takeLabel.mp h).2 ⟨rfl, rfl⟩⟩
    · exact ⟨hblocked, hnone⟩
  exact ensures_raise (fun a _ => h (.ok a) t log' ht) fun e _ => h (.error e) t log' ht

theorem reportFailure_leaves (agent : Option AgentResult) (produced : Option Bool)
    (hs : Present number s) :
    Ensures (Noted (Around (Spares number))) (fun _ => True) (fun _ _ => False)
      (reportFailure context number agent produced) (s, log) fun _ w => SetAside number w.1 := by
  refine ensures_bind (ensures_createComment hs fun t log' ht => ?_)
  refine ensures_bind (ensures_addLabels ht fun t log' _ hblocked => ?_)
  exact ensures_bind (ensures_takeProgress hblocked fun answer t log' hset => ensures_ret hset)

/-- The list of the branches is read. -/
theorem producedStep_leaves (hs : Present number s) :
    Ensures (Noted (Around (Spares number))) (fun _ => True) (fun _ _ => False)
      (producedStep (.implement number)) (s, log) fun produced w => Present number w.1 ∧
        ∃ names, w.2 = log ++ [⟨.listBranches, .ok names⟩] ∧
          produced = some (names.any (isBranchFor number)) := by
  refine ensures_bind (ensures_attempt (ensures_call trivial fun answer w hstep => ?_))
  have ht := around_present hstep.1 hs
  obtain ⟨⟨u, hspares, ⟨names, rfl⟩, -⟩, hlog⟩ := hstep
  exact ensures_ret (ensures_ret ⟨ht, names, hlog, rfl⟩)

/-- However the agent's step went. -/
theorem afterwards_leaves (agent : Option AgentResult) (hs : Present number s)
    (hagent : agent.any AgentResult.succeeded = true →
      ∃ prompt result, (⟨.runAgent prompt, result⟩ : ApiEvent) ∈ log ∧
        AgentResult.succeeded result = true) :
    Ensures (Noted (Around (Spares number))) (fun _ => True) (fun _ _ => False)
      (afterwards context (.implement number) agent) (s, log)
        fun _ w => Done number w.2 ∨ SetAside number w.1 := by
  refine ensures_bind ((producedStep_leaves hs).weaken fun produced w hw => ?_)
  obtain ⟨hw, names, hlog, rfl⟩ := hw
  obtain ⟨t, log'⟩ := w
  obtain rfl : log' = log ++ [⟨.listBranches, .ok names⟩] := hlog
  split
  · exact ensures_bind (ensures_attempt ((reportFailure_leaves agent _ hw).mono
      (fun _ _ hset => ensures_ret (.inr hset)) (fun _ _ h => h.elim) fun _ h => h))
  · rename_i hfine
    obtain ⟨hsucceeded, hproduced⟩ := not_or.mp hfine
    obtain ⟨prompt, result, hran, hresult⟩ := hagent (by simpa using hsucceeded)
    exact ensures_ret (.inl ⟨⟨prompt, result, List.mem_append_left _ hran, hresult⟩, names, by simp,
      by simpa using hproduced⟩)

theorem agentSteps_leaves (claimed : Bool) (hs : Present number s) :
    Ensures (Noted (Around (Spares number))) (fun _ => True) (fun _ _ => False)
      (agentSteps context (.implement number) claimed) (s, log)
        fun _ w => Done number w.2 ∨ SetAside number w.1 := by
  cases claimed with
  | false => exact afterwards_leaves none hs fun hnone => absurd hnone (by simp)
  | true =>
    refine ensures_bind (ensures_call trivial fun result w hstep => ensures_ret ?_)
    obtain ⟨t, log'⟩ := w
    obtain rfl : log' = log ++ [⟨.runAgent _, result⟩] := hstep.2
    exact afterwards_leaves (some result) (around_present hstep.1 hs) fun hsucceeded =>
      ⟨_, result, by simp, hsucceeded⟩

/-- **A run of the job that comes to its end** has the issue implemented, or it leaves it blocked
and not in progress: the agent has failed or left no branch, or the issue was not even free to be
claimed. -/
theorem dispatch_leaves {t : List IssueSummary} {trace : List ApiEvent}
    {outcome : Outcome Text Unit}
    (hs : Present number s) (hrun : Run (dispatch context true (.implement number)) trace outcome)
    (hended : outcome.ended = true) (hsteps : Steps (Around (Spares number)) s trace t) :
    outcome = .returned () ∧ (Done number trace ∨ SetAside number t) := by
  have hclaim : ∀ log s, Present number s →
    Ensures (Noted (Around (Spares number))) (fun _ => True) (fun _ _ => False)
      (claimStep (.implement number)) (s, log) fun _ w => Present number w.1 := by
    intro log s hs
    refine ensures_bind
      (ensures_attempt ((ensures_present (claim number) hs).mono ?_ ?_ fun _ h => h))
    · intro result w hw
      cases result with
      | error message => exact ensures_ret hw
      | ok title => exact ensures_ret hw
    · exact fun message w hw => ensures_ret hw
  have hjob : Ensures (Noted (Around (Spares number))) (fun _ => True) (fun _ _ => False)
      (dispatch context true (.implement number)) (s, [])
        fun _ w => Done number w.2 ∨ SetAside number w.1 := by
    refine ensures_bind (ensures_call trivial fun prepared w hstep => ensures_ret ?_)
    have hw := around_present hstep.1 hs
    cases prepared with
    | false => exact agentSteps_leaves false hw
    | true => exact ensures_bind ((hclaim w.2 w.1 hw).weaken
      fun claimed w hw => agentSteps_leaves claimed hw)
  obtain ⟨done, rfl, hleft⟩ := hjob.ended hrun hended (steps_noted hsteps [])
  exact ⟨rfl, hleft⟩

end Leaves

/-! ### An issue that nobody else touches -/

/-- The state of the issue, and which labels it has. -/
def Carries (state : IssueState) (P : Text → Prop) (issue : IssueSummary) : Prop :=
  issue.state = state ∧ ∀ label, label ∈ issue.labels ↔ P label

abbrev Alone (number : ℕ) := Around (Untouched number)

section Alone

variable {context : Context} {number : ℕ} {s : List IssueSummary} {state : IssueState}
    {P : Text → Prop} {label : Text}

theorem Carries.give {issue : IssueSummary} (h : Carries state P issue) :
    Carries state (fun other => P other ∨ other = label) (giveLabels [label] issue) := by
  refine ⟨h.1, fun other => ?_⟩
  simp only [giveLabels, List.mem_append, List.mem_filter, List.mem_singleton, decide_eq_true_eq,
    ← h.2 other]
  constructor
  · exact Or.imp_right And.left
  · rintro (hold | rfl)
    · exact .inl hold
    · exact (em (other ∈ issue.labels)).imp_right fun hnew => ⟨rfl, hnew⟩

theorem Carries.take {issue : IssueSummary} (h : Carries state P issue) :
    Carries state (fun other => P other ∧ other ≠ label) (takeLabel label issue) := by
  refine ⟨h.1, fun other => ?_⟩
  simp [takeLabel, ← h.2 other]

theorem Carries.without {issue : IssueSummary} (h : Carries state P issue)
    (hnone : label ∉ issue.labels) :
    Carries state (fun other => P other ∧ other ≠ label) issue := by
  refine ⟨h.1, fun other => ?_⟩
  rw [h.2 other]
  exact ⟨fun hother => ⟨hother, fun hsame => hnone (hsame ▸ (h.2 other).mpr hother)⟩, And.left⟩

/-- Reading the issue. -/
theorem ensures_getIssue {Q : IssueSummary → Prop} {post : IssueSummary → List IssueSummary → Prop}
    (hs : Has number Q s) (h : ∀ issue t, Q issue → Has number Q t → post issue t) :
    Ensures (Alone number) (fun _ => True) (fun _ _ => False) (getIssue number) s post := by
  refine ensures_call trivial fun answer t hstep => ?_
  obtain ⟨u, hothers, hcalm, hread, rfl⟩ := hstep
  have hu := hs.untouched hothers
  obtain ⟨issue, rfl⟩ := hcalm hu.present
  obtain ⟨found, hfound, hissue⟩ := hu
  obtain rfl : found = issue := Option.some.inj (hfound.symm.trans (hread issue rfl))
  exact ensures_ret (h found _ hissue ⟨found, hfound, hissue⟩)

theorem ensures_comment {Q : IssueSummary → Prop} {body : Text}
    {post : Unit → List IssueSummary → Prop}
    (hs : Has number Q s) (h : ∀ t, Has number Q t → post () t) :
    Ensures (Alone number) (fun _ => True) (fun _ _ => False)
      (createComment number body) s post := by
  refine ensures_call trivial fun answer t hstep => ?_
  obtain ⟨u, hothers, hcalm, hsame⟩ := hstep
  have hu := hs.untouched hothers
  obtain rfl : t = u := hsame
  obtain rfl : answer = .ok () := hcalm hu.present
  exact ensures_ret (h t hu)

theorem ensures_giveLabel {post : Unit → List IssueSummary → Prop}
    (hs : Has number (Carries state P) s)
    (h : ∀ t, Has number (Carries state fun other => P other ∨ other = label) t → post () t) :
    Ensures (Alone number) (fun _ => True) (fun _ _ => False)
      (addLabels number [label]) s post := by
  refine ensures_call trivial fun answer t hstep => ?_
  obtain ⟨u, hothers, hcalm, hadded⟩ := hstep
  have hu := hs.untouched hothers
  obtain rfl : answer = .ok () := hcalm hu.present
  obtain rfl : t = changeIssue number (giveLabels [label]) u := hadded
  exact ensures_ret (h _ (has_changeIssue (fun _ => rfl) (fun _ hissue => hissue.give) hu))

/-- Taking a label off, whether it is there or not. -/
theorem ensures_takeLabel {post : Except Text Unit → List IssueSummary → Prop}
    (hs : Has number (Carries state P) s)
    (h : ∀ answer t, Has number (Carries state fun other => P other ∧ other ≠ label) t →
      post answer t) :
    Ensures (Alone number) (fun _ => True) (fun _ _ => False)
      (removeLabel number label).attempt s post := by
  refine ensures_attempt (ensures_call trivial fun answer t hstep => ?_)
  obtain ⟨u, hothers, hcalm, hremoved⟩ := hstep
  have hu := hs.untouched hothers
  have ht : Has number (Carries state fun other => P other ∧ other ≠ label) t := by
    rcases calm_removeLabel hremoved hcalm with rfl | ⟨rfl, hnone⟩
    · exact has_changeIssue (fun _ => rfl) (fun _ hissue => hissue.take) hu
    · obtain ⟨issue, hfound, hissue⟩ := hu
      have hlabels : labelsOf t number = issue.labels := by
        unfold labelsOf
        rw [hfound]
        rfl
      exact ⟨issue, hfound, hissue.without (hlabels ▸ hnone)⟩
  exact ensures_raise (fun a _ => h (.ok a) t ht) fun e _ => h (.error e) t ht

/-- What the claim does to an issue. -/
theorem claim_carries {issue : IssueSummary}
    (hs : Has number (Carries issue.state (· ∈ issue.labels)) s) :
    Ensures (Alone number) (fun _ => True) (fun _ _ => False) (claim number) s fun result t =>
      (Free issue ∧ result.isOk = true ∧ Has number
        (Carries issue.state fun label => (label ∈ issue.labels ∨ label = inProgress) ∧
          label ≠ ready) t) ∨
      (¬ Free issue ∧ result.isOk = false ∧
        Has number (Carries issue.state (· ∈ issue.labels)) t) := by
  refine ensures_bind (ensures_getIssue hs fun before t hbefore ht => ?_)
  have hfree : Free before ↔ Free issue := by
    rw [Free, Free, hbefore.1, hbefore.2, hbefore.2, hbefore.2]
  rw [← hfree]
  split_ifs with hopened hprogress hblocked hready
  · exact ensures_ret (.inr ⟨fun h => hopened h.1, rfl, ht⟩)
  · exact ensures_ret (.inr ⟨fun h => h.2.2.1 hprogress, rfl, ht⟩)
  · exact ensures_ret (.inr ⟨fun h => h.2.2.2 hblocked, rfl, ht⟩)
  · refine ensures_bind (ensures_giveLabel ht fun t ht => ?_)
    refine ensures_bind (ensures_takeLabel ht fun answer t ht => ?_)
    refine ensures_bind (ensures_getIssue ht fun after t hafter ht => ?_)
    have hclaimed : inProgress ∈ after.labels := (hafter.2 _).mpr ⟨.inr rfl, inProgress_ne_ready.1⟩
    rw [if_neg (not_not.mpr hclaimed)]
    exact ensures_ret (.inl ⟨⟨not_not.mp hopened, hready, hprogress, hblocked⟩, rfl, ht⟩)
  · exact ensures_ret (.inr ⟨fun h => hready h.2.1, rfl, ht⟩)

/-- The issue has been reported. -/
abbrev Reported (number : ℕ) (state : IssueState) (P : Text → Prop)
    (s : List IssueSummary) : Prop :=
  Has number (Carries state fun label => (P label ∨ label = blocked) ∧ label ≠ inProgress) s

theorem reportFailure_carries (agent : Option AgentResult) (produced : Option Bool)
    (hs : Has number (Carries state P) s) :
    Ensures (Alone number) (fun _ => True) (fun _ _ => False)
      (reportFailure context number agent produced) s
      fun _ => Reported number state P := by
  refine ensures_bind (ensures_comment hs fun t ht => ?_)
  refine ensures_bind (ensures_giveLabel ht fun t ht => ?_)
  exact ensures_bind (ensures_takeLabel ht fun answer t ht => ensures_ret ht)

theorem afterwards_carries {log : List ApiEvent} (agent : Option AgentResult)
    (hs : Has number (Carries state P) s) (hagent : agent.any AgentResult.succeeded = true →
      ∃ prompt result, (⟨.runAgent prompt, result⟩ : ApiEvent) ∈ log ∧
        AgentResult.succeeded result = true) :
    Ensures (Noted (Alone number)) (fun _ => True) (fun _ _ => False)
      (afterwards context (.implement number) agent)
      (s, log) fun _ w => (agent.isSome = true ∧ Done number w.2 ∧
        Has number (Carries state P) w.1) ∨
        Reported number state P w.1 := by
  refine ensures_bind
    (ensures_bind (ensures_attempt (ensures_call trivial fun answer w hstep => ?_)))
  obtain ⟨t, log'⟩ := w
  obtain ⟨⟨u, hothers, ⟨names, rfl⟩, hsame⟩, hnoted⟩ := hstep
  obtain rfl : t = u := hsame
  obtain rfl : log' = log ++ [⟨.listBranches, .ok names⟩] := hnoted
  have ht := hs.untouched hothers
  refine ensures_ret (ensures_ret ?_)
  split
  · refine ensures_bind
      (ensures_attempt (((reportFailure_carries agent _ ht).noted _).mono ?_ ?_ fun _ h => h))
    · exact fun _ _ h => ensures_ret (.inr h.1)
    · exact fun _ _ h => h.1.elim
  · rename_i hfine
    obtain ⟨hsucceeded, hproduced⟩ := not_or.mp hfine
    obtain ⟨prompt, result, hran, hresult⟩ := hagent (by simpa using hsucceeded)
    have hsome : agent.isSome = true := by
      cases agent with
      | none => simp at hsucceeded
      | some result => rfl
    exact ensures_ret
      (.inl ⟨hsome, ⟨⟨prompt, result, List.mem_append_left _ hran, hresult⟩, names, by simp,
      by simpa using hproduced⟩, ht⟩)

theorem agentSteps_carries {log : List ApiEvent} (claimed : Bool)
    (hs : Has number (Carries state P) s) :
    Ensures (Noted (Alone number)) (fun _ => True) (fun _ _ => False)
      (agentSteps context (.implement number) claimed) (s, log) fun _ w =>
        (claimed = true ∧ Done number w.2 ∧ Has number (Carries state P) w.1) ∨
          Reported number state P w.1 := by
  cases claimed with
  | false =>
    refine (afterwards_carries none hs fun hnone => absurd hnone (by simp)).weaken fun _ _ h => ?_
    exact h.imp_left fun hdone => absurd hdone.1 (by simp)
  | true =>
    refine ensures_bind (ensures_call trivial fun result w hstep => ensures_ret ?_)
    obtain ⟨t, log'⟩ := w
    obtain ⟨⟨u, hothers, -, hsame⟩, hnoted⟩ := hstep
    obtain rfl : t = u := hsame
    obtain rfl : log' = log ++ [⟨.runAgent _, result⟩] := hnoted
    refine (afterwards_carries (some result) (hs.untouched hothers) fun hsucceeded =>
      ⟨_, result, by simp, hsucceeded⟩).weaken fun _ _ h => ?_
    exact h.imp_left fun hdone => ⟨rfl, hdone.2⟩

/-- **What a run does to the labels of an issue that nobody else touches.**  A free issue is
claimed, and stays so when the work is done; any other is reported with the labels it has. -/
theorem dispatch_carries {t : List IssueSummary} {trace : List ApiEvent}
    {outcome : Outcome Text Unit}
    {issue : IssueSummary} (hs : Has number (Carries issue.state (· ∈ issue.labels)) s)
    (hrun : Run (dispatch context true (.implement number)) trace outcome)
    (hended : outcome.ended = true) (hsteps : Steps (Alone number) s trace t) :
    (Free issue ∧ ((Done number trace ∧ Has number (Carries issue.state fun label =>
        (label ∈ issue.labels ∨ label = inProgress) ∧ label ≠ ready) t) ∨
      Reported number issue.state
        (fun label => (label ∈ issue.labels ∨ label = inProgress) ∧ label ≠ ready) t)) ∨
    ((⟨.setUp, false⟩ ∈ trace ∨ ¬ Free issue) ∧
      Reported number issue.state (· ∈ issue.labels) t) := by
  have hjob : Ensures (Noted (Alone number)) (fun _ => True) (fun _ _ => False)
      (dispatch context true (.implement number)) (s, []) fun _ w =>
        (Free issue ∧ ((Done number w.2 ∧ Has number (Carries issue.state fun label =>
            (label ∈ issue.labels ∨ label = inProgress) ∧ label ≠ ready) w.1) ∨
          Reported number issue.state
            (fun label => (label ∈ issue.labels ∨ label = inProgress) ∧ label ≠ ready) w.1)) ∨
        ((⟨.setUp, false⟩ ∈ w.2 ∨ ¬ Free issue) ∧
          Reported number issue.state (· ∈ issue.labels) w.1) := by
    refine ensures_bind (ensures_call trivial fun prepared w hstep => ensures_ret ?_)
    obtain ⟨u, log⟩ := w
    obtain ⟨⟨v, hothers, -, hsame⟩, hnoted⟩ := hstep
    obtain rfl : u = v := hsame
    obtain rfl : log = [⟨.setUp, prepared⟩] := hnoted
    have hu := hs.untouched hothers
    cases prepared with
    | false =>
      have hfailed : (⟨.setUp, false⟩ : ApiEvent) ∈ [(⟨.setUp, false⟩ : ApiEvent)] :=
        List.mem_singleton_self _
      refine ((agentSteps_carries false hu).and (ensures_noted _ hfailed)).mono ?_
        (fun _ _ h => h.1) fun _ _ => trivial
      rintro - w ⟨hdone | hreported, hmem⟩
      · exact absurd hdone.1 (by decide)
      · exact .inr ⟨.inl hmem, hreported⟩
    | true =>
      refine ensures_bind
        (ensures_bind (ensures_attempt (((claim_carries hu).noted _).mono ?_ ?_ fun _ h => h)))
      · rintro (message | title) ⟨v, log⟩ ⟨⟨hfree, hok, hv⟩ | ⟨hfree, hok, hv⟩, -⟩
        · cases hok
        · refine ensures_ret ((agentSteps_carries false hv).weaken fun _ w h => ?_)
          exact .inr ⟨.inr hfree, h.resolve_left fun hdone => absurd hdone.1 (by decide)⟩
        · refine ensures_ret ((agentSteps_carries true hv).weaken fun _ w h => ?_)
          exact .inl ⟨hfree, h.imp_left And.right⟩
        · cases hok
      · exact fun _ _ h => h.1.elim
  obtain ⟨done, rfl, hcarried⟩ := hjob.ended hrun hended (steps_noted hsteps [])
  exact hcarried

end Alone

theorem around_calm {number : ℕ} {s t : List IssueSummary} {event : ApiEvent}
    (h : Calm s event ∧ apiStep s event t) : Around (Spares number) s event t :=
  ⟨s, ⟨id, id, id⟩, h⟩

/-- An issue that is free once it is marked as ready, and one that is in review. -/
def twoIssues : List IssueSummary :=
  [⟨7, lit "Seven", .opened, [], none⟩, ⟨8, lit "Eight", .opened, [review], none⟩]

def atWork : Context := ⟨lit "https://github.test", lit "o/r", lit "1"⟩

/-- A run for the issue that is in review. -/
def refused : List ApiEvent × Outcome Text Unit × List IssueSummary :=
  play (answerApi ⟨true, [], []⟩ [lit "agent/issue-8-y"] [])
    (dispatch atWork true (.implement 8)) twoIssues

theorem dispatch_leaves_refused : refused.2.1 = .returned () ∧ SetAside 8 refused.2.2 := by
  have hsteps : Steps (Around (Spares 8)) twoIssues refused.1 refused.2.2 :=
    steps_play (answerApi ⟨true, [], []⟩ [lit "agent/issue-8-y"] []) id
      (fun _ _ _ _ h => around_calm (calm_answerApi h)) _ _
  have hended : refused.2.1.ended = true := by decide +kernel
  obtain ⟨houtcome, hleft⟩ := dispatch_leaves (by decide +kernel) (run_play _ _ _) hended hsteps
  refine ⟨houtcome, hleft.resolve_left fun hdone => ?_⟩
  obtain ⟨⟨prompt, result, hran, -⟩, -⟩ := hdone
  have hnone : refused.1.all (fun event => match event.op with
      | .runAgent _ => false
      | _ => true) = true := by decide +kernel
  exact Bool.false_ne_true (List.all_eq_true.mp hnone _ hran)

end Newsdeck.Workflows

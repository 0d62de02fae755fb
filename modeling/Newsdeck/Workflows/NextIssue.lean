import Newsdeck.Loop.Choice
import Newsdeck.Runner.Selection
import Newsdeck.Workflows.Closing
import Newsdeck.Workflows.Dispatch

/-!
# The next issue

After a merge, `loop-next-issue` closes the issue that has been shipped and dispatches the coding
agent for the next one.

* `nextIssue` — the job;
* `nextIssue_ships` — **the shipped issue ends up closed, with none of the labels of the lifecycle,
  and no agent is dispatched for it**;
* `nextIssue_hands_on` — an agent is dispatched for what is selected from the issues as the job
  leaves them;
* `handed_on` — **the dispatched run finds the issue free and runs the agent**.
-/

namespace Newsdeck.Workflows

open Ecma Effects Effects.Prog Loop Runner

def pullsOfCommit : Script (List AssociatedPull) := .call .pullsOfCommit raise
def listIssues : Script (List IssueSummary) := .call .listIssues raise
def closeIssue (number : ℕ) : Script Unit := .call (.closeIssue number) raise
def createDispatch (request : Request) : Script Unit := .call (.createDispatch request) raise

/-! ### The job -/

/-- The issue that the merged pull request closes.  A number that is none stands for no issue of the
repository. -/
def shippedIssue (pulls : List AssociatedPull) : Option ℕ :=
  match (pulls.find? AssociatedPull.merged).bind fun pull => closingIssue pull.body with
  | some (number : ℕ) => some number
  | _ => none

/-- A label that cannot be removed is left. -/
def removeLabels (number : ℕ) : List Text → Script Unit
  | [] => .ret ()
  | label :: labels => do
      let _ ← (removeLabel number label).attempt
      removeLabels number labels

/-- The declaration is written by whoever opened the pull request; a number that is not there stops
nothing. -/
def closeIfOpen (number : ℕ) : Script Unit := do
  let issue ← getIssue number
  if issue.state = .opened then closeIssue number else .ret ()

def shipIssue (number : ℕ) : Script Unit := do
  let _ ← (closeIfOpen number).attempt
  removeLabels number lifecycle

def closeOut : Script Unit := do
  let pulls ← pullsOfCommit
  match shippedIssue pulls with
  | none => .ret ()
  | some number => shipIssue number

/-- `select-issue.ts`, and the dispatch. -/
def selectNext (fallback : OrderedMap ℕ (List ℕ)) (dispatchAgent : Bool) : Script Unit := do
  let issues ← listIssues
  match (workflowSelection issues fallback).selected with
  | none => .ret ()
  | some issue => if dispatchAgent then createDispatch (.implement issue.number) else .ret ()

/-- One run of the workflow. -/
def nextIssue (fallback : OrderedMap ℕ (List ℕ)) (dispatchAgent : Bool) : Script Unit := do
  let prepared ← setUp
  if prepared then do
    closeOut
    selectNext fallback dispatchAgent
  else .ret ()

/-! ### What has been shipped -/

/-- The issue is closed and out of the lifecycle. -/
def Shipped (number : ℕ) (s : List IssueSummary) : Prop :=
  InState s .closed number ∧ ∀ label ∈ lifecycle, label ∉ labelsOf s number

/-- What others may do meanwhile: no issue is there twice, the issue stays and is not opened again,
and is given none of the labels. -/
structure Leaves (number : ℕ) (s u : List IssueSummary) : Prop where
  distinct : Distinct s → Distinct u
  present : Present number s → Present number u
  closed : InState s .closed number → InState u .closed number
  labels : ∀ label ∈ lifecycle, label ∈ labelsOf u number → label ∈ labelsOf s number

/-- The world around a run for a commit that belongs to the given pull requests. -/
def ForCommit (pulls : List AssociatedPull) (others : List IssueSummary → List IssueSummary → Prop)
    (s : List IssueSummary) (event : ApiEvent) (t : List IssueSummary) : Prop :=
  Around others s event t ∧ ∀ answer, event = ⟨.pullsOfCommit, answer⟩ → answer = .ok pulls

section Ships

variable {pulls : List AssociatedPull} {number : ℕ} {s t : List IssueSummary}

abbrev Shipping (pulls : List AssociatedPull) (number : ℕ) := ForCommit pulls (Leaves number)

/-- Each issue is there once, and the shipped one is among them. -/
def Listed (number : ℕ) (s : List IssueSummary) : Prop := Distinct s ∧ Present number s

theorem inState_changeIssue {other : ℕ} {f : IssueSummary → IssueSummary} {state : IssueState}
    (hf : ∀ issue : IssueSummary, (f issue).number = issue.number ∧
      (issue.state = state → (f issue).state = state))
    (h : InState s state number) : InState (changeIssue other f s) state number := by
  obtain ⟨issue, hissue, hnumber, hstate⟩ := h
  refine ⟨_, List.mem_map_of_mem hissue, ?_⟩
  split
  · exact ⟨(hf issue).1.trans hnumber, (hf issue).2 hstate⟩
  · exact ⟨hnumber, hstate⟩

theorem inState_of_find {issue : IssueSummary}
    (h : s.find? (fun issue => issue.number = number) = some issue) :
    InState s issue.state number :=
  ⟨issue, List.mem_of_find?_eq_some h, by simpa using List.find?_some h, rfl⟩

theorem closed_closeIssue (h : Present number s) :
    InState (changeIssue number closed s) .closed number := by
  obtain ⟨issue, hissue⟩ := Option.isSome_iff_exists.mp h
  have hnumber : issue.number = number := by simpa using List.find?_some hissue
  refine ⟨closed issue, List.mem_map.mpr ⟨issue, List.mem_of_find?_eq_some hissue, if_pos hnumber⟩,
    hnumber, rfl⟩

theorem leaving_listed {event : ApiEvent} (h : Around (Leaves number) s event t)
    (hs : Listed number s) :
    Listed number t := by
  obtain ⟨u, hleaves, -, hstep⟩ := h
  exact ⟨step_distinct hstep (hleaves.distinct hs.1), step_present hstep (hleaves.present hs.2)⟩

/-- The issue is read, and closed unless it is. -/
theorem closeIfOpen_ships (hs : Listed number s) :
    Ensures (Around (Leaves number)) (fun _ => True) (fun _ _ => False) (closeIfOpen number) s
      fun _ t => Listed number t ∧ InState t .closed number := by
  refine ensures_bind (ensures_call trivial fun answer t hstep => ?_)
  have ht := leaving_listed hstep hs
  obtain ⟨u, hleaves, hcalm, hread, rfl⟩ := hstep
  obtain ⟨issue, rfl⟩ := hcalm (hleaves.present hs.2)
  have hfound := hread issue rfl
  refine ensures_ret ?_
  split
  · refine ensures_call trivial fun answer v hstep => ?_
    have hv := leaving_listed hstep ht
    obtain ⟨w, hleaves', hcalm', hclosed⟩ := hstep
    have hw := hleaves'.present ht.2
    obtain rfl : answer = .ok () := hcalm' hw
    obtain rfl : v = changeIssue number closed w := hclosed
    exact ensures_ret ⟨hv, closed_closeIssue hw⟩
  · rename_i hopen
    have hclosed : issue.state = .closed := by
      cases hstate : issue.state with
      | opened => exact absurd hstate hopen
      | closed => rfl
    exact ensures_ret ⟨ht, hclosed ▸ inState_of_find hfound⟩

/-- The labels are taken off one after the other. -/
theorem removeLabels_ships (labels : List Text) : ∀ s, Listed number s → InState s .closed number →
    (∀ label ∈ lifecycle, label ∈ labelsOf s number → label ∈ labels) →
      Ensures (Around (Leaves number)) (fun _ => True) (fun _ _ => False)
        (removeLabels number labels) s
        fun _ t => Listed number t ∧ Shipped number t := by
  induction labels with
  | nil => exact fun s hs hclosed hlabels => ensures_ret ⟨hs, hclosed, fun label hlabel h => by
      simpa using hlabels label hlabel h⟩
  | cons label labels ih =>
    intro s hs hclosed hlabels
    refine ensures_bind (ensures_attempt (ensures_call trivial fun answer t hstep => ?_))
    have ht := leaving_listed hstep hs
    obtain ⟨u, hleaves, hcalm, hremoved⟩ := hstep
    have hclosed' := hleaves.closed hclosed
    have hafter : InState t .closed number ∧ ∀ other ∈ lifecycle, other ∈ labelsOf t number →
        other ∈ labels := by
      have hleft : ∀ other ∈ lifecycle, other ∈ labelsOf u number →
          other = label ∨ other ∈ labels :=
        fun other hother h => List.mem_cons.mp
          (hlabels other hother (hleaves.labels other hother h))
      rcases calm_removeLabel hremoved hcalm with rfl | ⟨rfl, hnone⟩
      · refine ⟨inState_changeIssue (fun _ => ⟨rfl, id⟩) hclosed', fun other hother h => ?_⟩
        obtain ⟨hold, hnot⟩ := mem_labelsOf_takeLabel.mp h
        exact (hleft other hother hold).resolve_left fun hsame => hnot ⟨rfl, hsame⟩
      · refine ⟨hclosed', fun other hother h => (hleft other hother h).resolve_left ?_⟩
        rintro rfl
        exact hnone h
    have hrest := ih t ht hafter.1 hafter.2
    exact ensures_raise (fun _ _ => hrest) fun _ _ => hrest

theorem shipIssue_ships (hs : Listed number s) :
    Ensures (Around (Leaves number)) (fun _ => True) (fun _ _ => False) (shipIssue number) s
      fun _ t => Listed number t ∧ Shipped number t := by
  refine ensures_bind
    (ensures_attempt ((closeIfOpen_ships hs).mono ?_ (fun _ _ h => h.elim) fun _ h => h))
  rintro - u ⟨hu, hclosed⟩
  exact removeLabels_ships lifecycle u hu hclosed fun label hlabel _ => hlabel

theorem closeOut_ships (hships : shippedIssue pulls = some number) (hs : Listed number s) :
    Ensures (Shipping pulls number) (fun _ => True) (fun _ _ => False) closeOut s
      fun _ t => Listed number t ∧ Shipped number t := by
  refine ensures_bind (ensures_call trivial fun answer t hstep => ?_)
  have ht := leaving_listed hstep.1 hs
  obtain rfl : answer = .ok pulls := hstep.2 answer rfl
  refine ensures_ret ?_
  rw [hships]
  exact (shipIssue_ships ht).within id fun _ _ _ h => h.1

theorem removeLabels_quiet (labels : List Text) :
    (removeLabels number labels).Emits fun op => ∀ request, op ≠ .createDispatch request := by
  induction labels with
  | nil => trivial
  | cons label labels ih =>
    exact emits_bind (emits_attempt ⟨by simp, fun answer => emits_raise answer⟩) fun _ => ih

/-- Closing out dispatches nothing. -/
theorem closeOut_quiet : closeOut.Emits fun op => ∀ request, op ≠ .createDispatch request := by
  refine emits_bind ⟨by simp, fun answer => emits_raise answer⟩ fun pulls => ?_
  split
  · trivial
  · refine emits_bind
      (emits_attempt (emits_bind ⟨by simp, fun answer => emits_raise answer⟩ fun issue => ?_))
      fun _ => removeLabels_quiet lifecycle
    split
    · exact ⟨by simp, fun answer => emits_raise answer⟩
    · trivial

/-- What is selected may be taken. -/
theorem workflowSelection_ready {issues : List IssueSummary} {fallback : OrderedMap ℕ (List ℕ)}
    {issue : IssueSummary}
    (hdistinct : Distinct issues) (h : (workflowSelection issues fallback).selected = some issue) :
    issue ∈ issues ∧ Loop.Ready issues (workflowPolicy fallback) issue := by
  obtain ⟨hmem, hselectable, -⟩ := (selectNextIssue_leads hdistinct _ _).mp h
  exact ⟨hmem, (selectable_iff hdistinct issue).mp hselectable⟩

theorem Leaves.shipped {u : List IssueSummary} (h : Leaves number s u) (hs : Shipped number s) :
    Shipped number u :=
  ⟨h.closed hs.1, fun label hlabel hmem => hs.2 label hlabel (h.labels label hlabel hmem)⟩

/-- An issue that is closed is not selected. -/
theorem workflowSelection_shipped {issues : List IssueSummary} {fallback : OrderedMap ℕ (List ℕ)}
    {issue : IssueSummary}
    (hperm : issues.Perm s) (hdistinct : Distinct s) (hclosed : InState s .closed number)
    (h : (workflowSelection issues fallback).selected = some issue) : issue.number ≠ number := by
  rintro rfl
  obtain ⟨hmem, hready⟩ := workflowSelection_ready (hdistinct.perm hperm.symm) h
  obtain ⟨other, hother, hnumber, hstate⟩ := hclosed
  obtain rfl : other = issue :=
    List.inj_on_of_nodup_map hdistinct hother (hperm.subset hmem) hnumber
  rw [hready.opened] at hstate
  cases hstate

theorem selectNext_ships {fallback : OrderedMap ℕ (List ℕ)} {dispatchAgent : Bool}
    {log : List ApiEvent} (hs : Listed number s) (hshipped : Shipped number s) :
    Ensures (Noted (Shipping pulls number)) (fun _ => True) (fun _ _ => False)
      (selectNext fallback dispatchAgent)
      (s, log) fun _ w => Shipped number w.1 ∧ ∃ rest, w.2 = log ++ rest ∧
        ∀ event ∈ rest, event.op ≠ .createDispatch (.implement number) := by
  refine ensures_bind (ensures_call trivial fun answer w hstep => ?_)
  obtain ⟨t, log'⟩ := w
  obtain ⟨⟨⟨u, hleaves, ⟨issues, rfl⟩, hlisted⟩, -⟩, rfl⟩ := hstep
  obtain rfl : t = u := hlisted.2
  have hperm := hlisted.1 issues rfl
  have ht := hleaves.shipped hshipped
  refine ensures_ret ?_
  cases hselected : (workflowSelection issues fallback).selected with
  | none => exact ensures_ret ⟨ht, [_], rfl, by simp⟩
  | some issue =>
    have hother := workflowSelection_shipped hperm (hleaves.distinct hs.1) ht.1 hselected
    show Ensures _ _ _ (if dispatchAgent = true then _ else _) _ _
    split
    · refine ensures_call trivial fun answer w hstep => ?_
      obtain ⟨v, log''⟩ := w
      obtain ⟨⟨⟨w, hleaves', hcalm, hsame⟩, -⟩, rfl⟩ := hstep
      obtain rfl : answer = .ok () := hcalm
      obtain rfl : v = w := hsame
      refine ensures_ret ⟨hleaves'.shipped ht, [_, _], List.append_assoc _ _ _, ?_⟩
      simpa using hother
    · exact ensures_ret ⟨ht, [_], rfl, by simp⟩

/-- **The shipped issue ends up closed and without a label of the lifecycle**, and no agent is
dispatched for it. -/
theorem nextIssue_ships {fallback : OrderedMap ℕ (List ℕ)} {dispatchAgent : Bool}
    {trace : List ApiEvent}
    {outcome : Outcome Text Unit} (hships : shippedIssue pulls = some number) (hs : Listed number s)
    (hrun : Run (nextIssue fallback dispatchAgent) trace outcome) (hended : outcome.ended = true)
    (hsteps : Steps (Shipping pulls number) s trace t) :
    outcome = .returned () ∧ ((⟨.setUp, false⟩ : ApiEvent) ∈ trace ∨ Shipped number t) ∧
      ∀ event ∈ trace, event.op ≠ .createDispatch (.implement number) := by
  have hjob : Ensures (Noted (Shipping pulls number)) (fun _ => True) (fun _ _ => False)
      (nextIssue fallback dispatchAgent) (s, []) fun _ w =>
        ((⟨.setUp, false⟩ : ApiEvent) ∈ w.2 ∨ Shipped number w.1) ∧
          ∀ event ∈ w.2, event.op ≠ .createDispatch (.implement number) := by
    refine ensures_bind (ensures_call trivial fun prepared w hstep => ensures_ret ?_)
    have hw := leaving_listed hstep.1.1 hs
    obtain ⟨u, log⟩ := w
    obtain rfl : log = [⟨.setUp, prepared⟩] := hstep.2
    cases prepared with
    | false => exact ensures_ret ⟨.inl (by simp), by simp⟩
    | true =>
      refine ensures_bind (((closeOut_ships hships hw).noted _).mono ?_ (fun _ _ h => h.1.elim)
        fun _ h => h)
      rintro closed ⟨t, log⟩ ⟨⟨ht, hshipped⟩, before, rfl, hclosing, -⟩
      refine (selectNext_ships ht hshipped).weaken ?_
      rintro - ⟨v, log⟩ ⟨hv, rest, rfl, hrest⟩
      refine ⟨.inr hv, fun event hevent => ?_⟩
      rcases List.mem_append.mp hevent with hevent | hevent
      · rcases List.mem_append.mp hevent with hevent | hevent
        · rw [List.mem_singleton.mp hevent]
          simp
        · exact run_emits hclosing closeOut_quiet event hevent _
      · exact hrest event hevent
  obtain ⟨done, rfl, hshipped⟩ := hjob.ended hrun hended (steps_noted hsteps [])
  exact ⟨rfl, hshipped⟩

end Ships

/-! ### What is handed on -/

section HandsOn

variable {fallback : OrderedMap ℕ (List ℕ)} {dispatchAgent : Bool} {s t : List IssueSummary}

/-- An agent is dispatched for what is selected from these issues, and only when one is wanted. -/
def HandsOn (fallback : OrderedMap ℕ (List ℕ)) (dispatchAgent : Bool) (w : ApiWorld) : Prop :=
  ∀ event ∈ w.2, ∀ request, event.op = .createDispatch request → dispatchAgent = true ∧
    ∃ issue, (workflowSelection w.1 fallback).selected = some issue ∧
      request = .implement issue.number

/-- No agent has been dispatched. -/
def Undispatched (log : List ApiEvent) : Prop :=
  ∀ event ∈ log, ∀ request, event.op ≠ .createDispatch request

theorem Undispatched.hands_on {w : ApiWorld} (h : Undispatched w.2) :
    HandsOn fallback dispatchAgent w :=
  fun event hevent request hop => absurd hop (h event hevent request)

theorem Undispatched.snoc {log : List ApiEvent} {op : ApiOp} {answer : op.Answer}
    (h : Undispatched log)
    (hop : ∀ request, op ≠ .createDispatch request) : Undispatched (log ++ [⟨op, answer⟩]) := by
  intro event hevent request
  rcases List.mem_append.mp hevent with hevent | hevent
  · exact h event hevent request
  · rw [List.mem_singleton.mp hevent]
    exact hop request

theorem selectNext_hands_on {log : List ApiEvent} (hs : Distinct s)
    (hlog : Undispatched log) :
    Ensures (Noted apiStep) (HandsOn fallback dispatchAgent)
      (fun _ => HandsOn fallback dispatchAgent)
      (selectNext fallback dispatchAgent) (s, log) fun _ => HandsOn fallback dispatchAgent := by
  refine ensures_bind (ensures_call hlog.hands_on fun answer w hstep => ?_)
  obtain ⟨t, log'⟩ := w
  obtain ⟨⟨hperm, hsame⟩, hnoted⟩ := hstep
  obtain rfl : t = s := hsame
  obtain rfl : log' = log ++ [⟨.listIssues, answer⟩] := hnoted
  have hlog' : Undispatched (log ++ [⟨.listIssues, answer⟩]) := hlog.snoc (by simp)
  refine ensures_raise (fun issues hissues => ?_) fun _ _ => hlog'.hands_on
  cases hselected : (workflowSelection issues fallback).selected with
  | none => exact ensures_ret hlog'.hands_on
  | some issue =>
    have hperm' : issues.Perm t := hperm issues hissues
    have hstore : (workflowSelection t fallback).selected = some issue := by
      rw [workflowSelection, ← selectNextIssue_perm (hs.perm hperm'.symm) hperm']
      exact hselected
    show Ensures _ _ _ (if dispatchAgent = true then _ else _) _ _
    split
    · rename_i hwanted
      refine ensures_call hlog'.hands_on fun answer' w hstep => ?_
      obtain ⟨u, log'⟩ := w
      obtain ⟨hsame, hnoted⟩ := hstep
      obtain rfl : u = t := hsame
      obtain rfl : log' = log ++ [⟨.listIssues, answer⟩] ++
          [⟨.createDispatch (.implement issue.number), answer'⟩] :=
        hnoted
      have hdone : HandsOn fallback dispatchAgent
          (u, log ++ [⟨.listIssues, answer⟩] ++
            [⟨.createDispatch (.implement issue.number), answer'⟩]) := by
        intro event hevent request hop
        rcases List.mem_append.mp hevent with hevent | hevent
        · exact absurd hop (hlog' event hevent request)
        · rw [List.mem_singleton.mp hevent] at hop
          exact ⟨hwanted, issue, hstore, (ApiOp.createDispatch.inj hop).symm⟩
      exact ensures_raise (fun _ _ => hdone) fun _ _ => hdone
    · exact ensures_ret hlog'.hands_on

/-- Closing out keeps the issues apart. -/
theorem closeOut_hands_on {log : List ApiEvent} (hs : Distinct s) (hlog : Undispatched log) :
    Ensures (Noted apiStep) (HandsOn fallback dispatchAgent)
      (fun _ => HandsOn fallback dispatchAgent) closeOut
      (s, log) fun _ w => Distinct w.1 ∧ Undispatched w.2 := by
  refine (ensures_emits (s := (s, log)) (fun w => Distinct w.1 ∧ Undispatched w.2) closeOut_quiet ?_
    ⟨hs, hlog⟩).mono (fun _ _ h => h) (fun _ _ h => h.2.hands_on) fun _ h => h.2.hands_on
  rintro op answer w w' hop ⟨hw, hquiet⟩ ⟨hstep, hnoted⟩
  refine ⟨step_distinct hstep hw, ?_⟩
  rw [hnoted]
  exact hquiet.snoc hop

theorem ensures_nextIssue (hs : Distinct s) :
    Ensures (Noted apiStep) (HandsOn fallback dispatchAgent)
      (fun _ => HandsOn fallback dispatchAgent)
      (nextIssue fallback dispatchAgent) (s, []) fun _ => HandsOn fallback dispatchAgent := by
  refine ensures_bind (ensures_call (Undispatched.hands_on (by simp [Undispatched]))
      fun prepared w hstep =>
    ensures_ret ?_)
  obtain ⟨u, log⟩ := w
  obtain ⟨hsame, hnoted⟩ := hstep
  obtain rfl : u = s := hsame
  obtain rfl : log = [⟨.setUp, prepared⟩] := hnoted
  cases prepared with
  | false => exact ensures_ret (Undispatched.hands_on (by simp [Undispatched]))
  | true =>
    refine ensures_bind ((closeOut_hands_on hs (by simp [Undispatched])).weaken ?_)
    rintro - ⟨v, log⟩ ⟨hv, hlog⟩
    exact selectNext_hands_on hv hlog

/-- **An agent is dispatched for what is selected from the issues as the job leaves them**, whatever
fails and wherever the job is interrupted. -/
theorem nextIssue_hands_on {trace : List ApiEvent} {outcome : Outcome Text Unit} (hs : Distinct s)
    (hrun : Run (nextIssue fallback dispatchAgent) trace outcome)
    (hsteps : Steps apiStep s trace t) :
    HandsOn fallback dispatchAgent (t, trace) :=
  (ensures_nextIssue hs).holds hrun (steps_noted hsteps [])

end HandsOn

/-! ### What becomes of it -/

section Claims

variable {context : Context} {number : ℕ} {s t : List IssueSummary}

/-- The agent has been run, or there was nothing to run it with. -/
def Worked (log : List ApiEvent) : Prop :=
  (⟨.setUp, false⟩ : ApiEvent) ∈ log ∨ ∃ prompt result,
    (⟨.runAgent prompt, result⟩ : ApiEvent) ∈ log

theorem ensures_worked {α : Type} (p : Script α) {log : List ApiEvent} (h : Worked log) :
    Ensures (Noted (Alone number)) (fun _ => True) (fun _ w => Worked w.2) p (s, log)
      fun _ w => Worked w.2 := by
  rcases h with hfailed | ⟨prompt, result, hran⟩
  · exact (ensures_noted p hfailed).mono (fun _ _ h => .inl h) (fun _ _ h => .inl h)
      fun _ _ => trivial
  · exact (ensures_noted p hran).mono (fun _ _ h => .inr ⟨prompt, result, h⟩)
      (fun _ _ h => .inr ⟨prompt, result, h⟩)
      fun _ _ => trivial

/-- **A run that is dispatched for a free issue runs the agent on it**, when nobody interferes. -/
theorem dispatch_works {trace : List ApiEvent} {outcome : Outcome Text Unit}
    (hs : Has number Free s) (hrun : Run (dispatch context true (.implement number)) trace outcome)
    (hended : outcome.ended = true) (hsteps : Steps (Alone number) s trace t) : Worked trace := by
  have hjob : Ensures (Noted (Alone number)) (fun _ => True) (fun _ w => Worked w.2)
      (dispatch context true (.implement number)) (s, []) fun _ w => Worked w.2 := by
    refine ensures_bind (ensures_call trivial fun prepared w hstep => ensures_ret ?_)
    obtain ⟨u, log⟩ := w
    obtain ⟨⟨v, hothers, -, hsame⟩, hnoted⟩ := hstep
    obtain rfl : u = v := hsame
    obtain rfl : log = [⟨.setUp, prepared⟩] := hnoted
    have hu := hs.untouched hothers
    cases prepared with
    | false => exact ensures_worked _ (.inl (by simp))
    | true =>
      have hclaim : Ensures (Noted (Alone number)) (fun _ => True) (fun _ w => Worked w.2)
          (claimStep (.implement number)) (u, [⟨.setUp, true⟩])
            fun claimed _ => claimed = true := by
        obtain ⟨issue, hfound, hfree⟩ := hu
        have hissue : Has number (Carries issue.state (· ∈ issue.labels)) u :=
          ⟨issue, hfound, rfl, fun _ => Iff.rfl⟩
        refine ensures_bind
          (ensures_attempt (((claim_carries hissue).noted _).mono ?_ ?_ fun _ h => h))
        · rintro (message | title) w ⟨⟨-, hok, -⟩ | ⟨hnot, -⟩, -⟩
          · cases hok
          · exact absurd hfree hnot
          · exact ensures_ret rfl
          · exact absurd hfree hnot
        · exact fun _ _ h => h.1.elim
      refine ensures_bind (hclaim.weaken ?_)
      rintro claimed w rfl
      refine ensures_bind (ensures_call trivial fun result w' hstep => ensures_ret ?_)
      refine ensures_worked _ (.inr ⟨_, result, ?_⟩)
      rw [hstep.2]
      exact List.mem_append_right _ (List.mem_singleton_self _)
  have hmeets := hjob trace outcome _ hrun (steps_noted hsteps [])
  cases outcome with
  | returned done => exact hmeets
  | threw message => exact hmeets
  | interrupted => cases hended

theorem steps_distinct {trace : List ApiEvent} (h : Steps apiStep s trace t) (hs : Distinct s) :
    Distinct t := by
  induction h with
  | nil => exact hs
  | cons first _ ih => exact ih (step_distinct first hs)

theorem find_of_mem {issue : IssueSummary} (hs : Distinct s) (h : issue ∈ s) :
    (s.find? fun other => other.number = issue.number) = some issue := by
  have hsome : (s.find? fun other => other.number = issue.number).isSome = true :=
    List.find?_isSome.mpr ⟨issue, h, by simp⟩
  obtain ⟨other, hfound⟩ := Option.isSome_iff_exists.mp hsome
  have hnumber : other.number = issue.number := by simpa using List.find?_some hfound
  rw [hfound, List.inj_on_of_nodup_map hs (List.mem_of_find?_eq_some hfound) h hnumber]

theorem free_of_ready {issues : List IssueSummary} {fallback : OrderedMap ℕ (List ℕ)}
    {issue : IssueSummary}
    (h : Loop.Ready issues (workflowPolicy fallback) issue) : Free issue := by
  have hexcluded : inProgress ∈ defaultSelectionPolicy.excludedLabels ∧
      blocked ∈ defaultSelectionPolicy.excludedLabels := by decide
  exact ⟨h.opened, h.required, h.excluded _ hexcluded.1, h.excluded _ hexcluded.2⟩

/-- **From the merge to the agent.**  What the job dispatches, when the run that follows is not
interfered with, is worked on. -/
theorem handed_on {fallback : OrderedMap ℕ (List ℕ)} {dispatchAgent : Bool}
    {before after : List ApiEvent}
    {left : Outcome Text Unit} {outcome : Outcome Text Unit} {u : List IssueSummary}
    (hs : Distinct s) (hselect : Run (nextIssue fallback dispatchAgent) before left)
    (hbefore : Steps apiStep s before t)
    (hdispatched : ∃ event ∈ before, event.op = .createDispatch (.implement number))
    (hrun : Run (dispatch context true (.implement number)) after outcome)
    (hended : outcome.ended = true) (hafter : Steps (Alone number) t after u) : Worked after := by
  obtain ⟨event, hevent, hop⟩ := hdispatched
  have hhands : HandsOn fallback dispatchAgent (t, before) :=
    (ensures_nextIssue hs).holds hselect (steps_noted hbefore [])
  obtain ⟨-, issue, hselected, hrequest⟩ := hhands event hevent _ hop
  obtain rfl : number = issue.number := Request.implement.inj hrequest
  have ht := steps_distinct hbefore hs
  obtain ⟨hmem, hready⟩ := workflowSelection_ready ht hselected
  exact dispatch_works ⟨issue, find_of_mem ht hmem, free_of_ready hready⟩ hrun hended hafter

end Claims

/-! ### A merge -/

/-- An issue that is being shipped, and one that waits for it. -/
def shipping : List IssueSummary :=
  [⟨4, lit "Four", .opened, [inProgress, lit "risk:low"], none⟩,
    ⟨5, lit "Five", .opened, [ready], some (lit "Depends on: #4")⟩]

def mergedPulls : List AssociatedPull := [⟨40, true, some (lit "Closes #4")⟩]

/-- The run after the merge. -/
def afterMerge : List ApiEvent × Outcome Text Unit × List IssueSummary :=
  play (answerApi ⟨true, [], []⟩ [] mergedPulls) (nextIssue [] true) shipping

/-- The run that it dispatches. -/
def afterDispatch : List ApiEvent × Outcome Text Unit × List IssueSummary :=
  play (answerApi ⟨true, [], []⟩ [] []) (dispatch atWork true (.implement 5)) afterMerge.2.2

theorem nextIssue_ships_four : afterMerge.2.1 = .returned () ∧ Shipped 4 afterMerge.2.2 := by
  have hworld : ∀ s op answer t, answerApi ⟨true, [], []⟩ [] mergedPulls s op = some (answer, t) →
      Shipping mergedPulls 4 s ⟨op, answer⟩ t := by
    intro s op answer t h
    refine ⟨⟨s, ⟨id, id, id, fun _ _ => id⟩, calm_answerApi h⟩, fun answer' hevent => ?_⟩
    cases hevent
    cases h
    rfl
  have hsteps : Steps (Shipping mergedPulls 4) shipping afterMerge.1 afterMerge.2.2 :=
    steps_play _ id hworld _ _
  have hended : afterMerge.2.1.ended = true := by decide +kernel
  obtain ⟨houtcome, hshipped, -⟩ :=
    nextIssue_ships (by decide +kernel) ⟨by decide +kernel, by decide +kernel⟩
    (run_play _ _ _) hended hsteps
  refine ⟨houtcome, hshipped.resolve_left fun hfailed => ?_⟩
  have hnone : afterMerge.1.all (fun event => match event with
      | ⟨.setUp, false⟩ => false
      | _ => true) = true := by decide +kernel
  exact Bool.false_ne_true (List.all_eq_true.mp hnone _ hfailed)

theorem dispatched_five : ∃ event ∈ afterMerge.1, event.op = .createDispatch
    (.implement 5) := by decide +kernel

theorem steps_afterMerge : Steps apiStep shipping afterMerge.1 afterMerge.2.2 :=
  steps_play (answerApi ⟨true, [], []⟩ [] mergedPulls) id
    (fun _ _ _ _ h => (calm_answerApi h).2) _ _

theorem nextIssue_hands_on_five :
    (workflowSelection afterMerge.2.2 []).selected.map IssueSummary.number = some 5 := by
  have hhanded := nextIssue_hands_on (by decide +kernel) (run_play _ _ _) steps_afterMerge
  obtain ⟨event, hevent, hop⟩ := dispatched_five
  obtain ⟨-, issue, hselected, hrequest⟩ := hhanded event hevent _ hop
  rw [hselected, Request.implement.inj hrequest]
  rfl

theorem handed_on_five : Worked afterDispatch.1 := by
  have hafter : Steps (Alone 5) afterMerge.2.2 afterDispatch.1 afterDispatch.2.2 :=
    steps_play (answerApi ⟨true, [], []⟩ [] []) id (fun s _ _ _ h => ⟨s, rfl, calm_answerApi h⟩) _ _
  have hended : afterDispatch.2.1.ended = true := by decide +kernel
  exact handed_on (by decide +kernel) (run_play _ _ _) steps_afterMerge dispatched_five
    (run_play _ _ _) hended hafter

end Newsdeck.Workflows

import Newsdeck.Library.Exclusion
import Newsdeck.Workflows.Dispatch

/-!
# Runs side by side

GitHub runs the dispatch for one issue or pull request one at a time; all else happens in any order.

* `runsAgent_le`, `takenOff_le` — the two steps of the count;
* `agents_le_ready` — **an agent is run on an issue no more often than somebody has marked it as
  ready**.
-/

namespace Newsdeck.Workflows

open Ecma Effects Effects.Prog Loop

/-- Who works on the issues: runs of the job, and anybody else. -/
inductive Party where
  | dispatch (context : Context) (available : Bool) (request : Request)
  | other (script : Script Unit)

namespace Party

def program : Party → Script Unit
  | dispatch context available request => Workflows.dispatch context available request
  | other script => script

/-- The concurrency group of the workflow. -/
def group : Party → Option ℕ
  | dispatch _ _ request => some request.target
  | other _ => none

/-- It is a run of the job that implements the issue. -/
def implements (number : ℕ) : Party → Bool
  | dispatch _ _ request => request = .implement number
  | other _ => false

theorem group_implements {number : ℕ} {party : Party} (h : party.implements number = true) :
    party.group = some number := by
  cases party with
  | dispatch context available request =>
    obtain rfl : request = .implement number := of_decide_eq_true h
    rfl
  | other script => cases h

end Party

section Parties

variable {ι : Type} (parties : ι → Party) (number : ℕ)

abbrev ApiTagged (ι : Type) := Tagged ι ApiOp ApiOp.Answer
abbrev ApiMove (ι : Type) := Move (List IssueSummary) (ι × ApiOp) (TaggedAns ι ApiOp.Answer)

/-- A run of the job runs the agent on the issue. -/
def runsAgent (event : ApiTagged ι) : Bool :=
  (parties event.op.1).implements number && match event.op.2 with
    | .runAgent _ => true
    | _ => false

/-- A run of the job takes off the label that marks the issue as ready. -/
def takesReady (event : ApiTagged ι) : Bool :=
  (parties event.op.1).implements number && event.op.2 = .removeLabel number ready

/-- Somebody marks the issue as ready. -/
def marksReady (event : ApiTagged ι) : Bool := gives number ready event.op.2

/-- The label is off. -/
def takenOff (move : ApiMove ι) : Bool :=
  takesReady parties number move.event && ready ∉ labelsOf move.after number

/-- The label has stayed. -/
def leftOn (move : ApiMove ι) : Bool :=
  takesReady parties number move.event && ready ∈ labelsOf move.after number

variable {parties number} {start s : List IssueSummary} {moves : List (ApiMove ι)}

theorem takesReady_eq {event : ApiTagged ι} (h : takesReady parties number event = true) :
    (parties event.op.1).implements number = true ∧ event.op.2 = .removeLabel number ready := by
  obtain ⟨himplements, hop⟩ := (Bool.and_eq_true _ _).mp h
  exact ⟨himplements, of_decide_eq_true hop⟩

theorem runsAgent_eq {event : ApiTagged ι} (h : runsAgent parties number event = true) :
    (parties event.op.1).implements number = true ∧ ∃ prompt, event.op.2 = .runAgent prompt := by
  obtain ⟨himplements, hop⟩ := (Bool.and_eq_true _ _).mp h
  split at hop
  · rename_i prompt heq
    exact ⟨himplements, prompt, heq⟩
  · cases hop

/-- Where nobody gives the label, it does not appear. -/
theorem exists_gives {label : Text} (hwalk : Walk (Shared apiStep) start moves s)
    (hstart : label ∉ labelsOf start number) (hend : label ∈ labelsOf s number) :
    ∃ move ∈ moves, gives number label move.event.op.2 = true := by
  by_contra hnone
  refine walk_keeps (fun s => label ∉ labelsOf s number) hwalk hstart
    (fun before move after hmoves hbefore hstep hafter => ?_) hend
  have hshared : apiStep move.before ⟨move.event.op.2, move.event.answer⟩ move.after := hstep
  rcases step_labels hshared hafter with hold | hgives
  · exact hbefore hold
  · exact hnone ⟨move, by rw [hmoves]; simp, hgives⟩

/-- An issue that was read was there. -/
theorem exists_read {i : ι} {issue : IssueSummary} (hwalk : Walk (Shared apiStep) start moves s)
    (hread : (⟨(i, .getIssue number), .ok issue⟩ : ApiTagged ι) ∈ moves.map Move.event) :
    ∃ front move back, moves = front ++ move :: back ∧ move.event.op.1 = i ∧
      move.before.find? (fun issue => issue.number = number) = some issue := by
  obtain ⟨⟨before, event, next⟩, hmove, rfl⟩ := List.mem_map.mp hread
  obtain ⟨front, back, rfl⟩ := List.append_of_mem hmove
  obtain ⟨-, hstep⟩ := walk_split hwalk rfl
  exact ⟨front, _, back, rfl, rfl, hstep.1 issue rfl⟩

/-- An issue that is read with the label, and did not have it, was given it in between. -/
theorem exists_gives_read {label : Text} {after : List (ApiMove ι)} {i : ι} {issue : IssueSummary}
    (hwalk : Walk (Shared apiStep) start (moves ++ after) s)
    (hstart : label ∉ labelsOf start number)
    (hread : (⟨(i, .getIssue number), .ok issue⟩ : ApiTagged ι) ∈ moves.map Move.event)
    (hlabel : label ∈ issue.labels) : ∃ move ∈ moves,
      gives number label move.event.op.2 = true := by
  obtain ⟨m, hmoves, -⟩ := walk_rest hwalk rfl
  obtain ⟨front, move, back, rfl, -, hfound⟩ := exists_read hmoves hread
  obtain ⟨hfront, -⟩ := walk_split hmoves rfl
  have hbefore : label ∈ labelsOf move.before number := by
    unfold labelsOf
    rw [hfound]
    exact hlabel
  obtain ⟨giving, hgiving, hgives⟩ := exists_gives hfront hstart hbefore
  exact ⟨giving, List.mem_append_left _ hgiving, hgives⟩

end Parties

section Interleavings

variable {ι : Type} [DecidableEq ι] {parties : ι → Party} {number : ℕ} {trace : List (ApiTagged ι)}
  {start s : List IssueSummary} {moves : List (ApiMove ι)}

/-- What a run of the job asks for, after what it has done before. -/
theorem asks_in {front back : List (ApiTagged ι)} {event : ApiTagged ι}
    (h : Interleaved (fun i => (parties i).program) (front ++ event :: back))
    (himplements : (parties event.op.1).implements number = true) :
    DispatchAsks (.implement number) (front.filterMap (own event.op.1)) event.op.2 := by
  obtain ⟨⟨i, op⟩, answer⟩ := event
  refine interleaved_emitsAfter h ?_
  cases hparty : parties i with
  | other script => simp [hparty, Party.implements] at himplements
  | dispatch context available request =>
    obtain rfl : request = .implement number := by
      simpa [hparty, Party.implements] using himplements
    exact dispatch_asks context available _

theorem mem_own_of {i : ι} {event : ApiTagged ι} (h : event ∈ trace) (howner : event.op.1 = i) :
    (⟨event.op.2, event.answer⟩ : ApiEvent) ∈ trace.filterMap (own i) :=
  List.mem_filterMap.mpr ⟨event, h, if_pos howner⟩

/-- An agent is run no more often than the label is taken off. -/
theorem runsAgent_le (h : Interleaved (fun i => (parties i).program) trace)
    (hserial : Serial (fun i => (parties i).group) trace) :
    trace.countP (runsAgent parties number) ≤ trace.countP (takesReady parties number) := by
  refine hserial.countP_le (g := number) ?_
  rintro front event back rfl hruns
  obtain ⟨himplements, prompt, hop⟩ := runsAgent_eq hruns
  obtain ⟨honce, hclaimed⟩ := (asks_in h himplements).2.1 prompt hop
  obtain ⟨⟨op, answer⟩, hremoved, hremove⟩ := hclaimed number rfl
  refine ⟨Party.group_implements himplements, fun other hother howner => ?_, ?_⟩
  · have hnot := honce _ (mem_own_of hother howner)
    refine Bool.eq_false_iff.mpr fun hagain => ?_
    obtain ⟨-, prompt', hop'⟩ := runsAgent_eq hagain
    exact hnot prompt' hop'
  · refine ⟨⟨(event.op.1, op), answer⟩, mem_own hremoved, rfl, ?_⟩
    simp only [takesReady, himplements, Bool.true_and]
    exact decide_eq_true hremove

/-- What a run has done before it takes the label off. -/
theorem takesReady_after {front back : List (ApiTagged ι)} {event : ApiTagged ι}
    (h : Interleaved (fun i => (parties i).program) (front ++ event :: back))
    (htakes : takesReady parties number event = true) :
    (∃ issue, (⟨(event.op.1, .getIssue number), .ok issue⟩ : ApiTagged ι) ∈ front ∧ Free issue) ∧
      ∀ other ∈ front, other.op.1 = event.op.1 → takesReady parties number other = false := by
  obtain ⟨himplements, hop⟩ := takesReady_eq htakes
  obtain ⟨-, ⟨issue, hread, hfree⟩, honce⟩ := (asks_in h himplements).1 number hop
  refine ⟨⟨issue, mem_own hread, hfree⟩, fun other hother howner => Bool.eq_false_iff.mpr
    fun hagain => ?_⟩
  exact honce _ (mem_own_of hother howner) (takesReady_eq hagain).2

/-- The label is taken off no more often than somebody marks the issue as ready. -/
theorem takenOff_le (hwalk : Walk (Shared apiStep) start moves s)
    (h : Interleaved (fun i => (parties i).program) (moves.map Move.event))
    (hserial : Serial (fun i => (parties i).group) (moves.map Move.event)) :
    moves.countP (takenOff parties number) ≤
      moves.countP (fun move => marksReady number move.event) +
        if ready ∈ labelsOf start number then 1 else 0 := by
  have hseparated : Separated (takenOff parties number)
      (fun move => marksReady number move.event) moves := by
    rintro front x middle y back rfl hx hy
    obtain ⟨hx, hoff⟩ := (Bool.and_eq_true _ _).mp hx
    obtain ⟨hy, -⟩ := (Bool.and_eq_true _ _).mp hy
    have hgroup := Party.group_implements (takesReady_eq hx).1
    have hgroup' := Party.group_implements (takesReady_eq hy).1
    have hsplit : (front ++ x :: (middle ++ y :: back)).map Move.event =
        (front ++ x :: middle).map Move.event ++ y.event :: back.map Move.event := by simp
    obtain ⟨⟨issue, hread, hfree⟩, honce⟩ := takesReady_after (hsplit ▸ h) hy
    -- the two are different runs, so the second has read the issue after the first
    have hother : x.event.op.1 ≠ y.event.op.1 := by
      intro hsame
      rw [honce x.event (by simp) hsame] at hx
      cases hx
    have hlater : (⟨(y.event.op.1, .getIssue number), .ok issue⟩ : ApiTagged ι) ∈
        middle.map Move.event := by
      have hserial' : Serial (fun i => (parties i).group) (front.map Move.event ++ x.event ::
          (middle.map Move.event ++ y.event :: back.map Move.event)) := by simpa using hserial
      refine hserial'.later (hgroup.trans hgroup'.symm) ?_ hother ?_ rfl
      · rw [hgroup]
        rfl
      · simpa using hread
    exact exists_gives_read (walk_from hwalk) (of_decide_eq_true hoff) hlater hfree.2.1
  have hcount := countP_le_of_separated hseparated
  split
  · exact hcount.1
  · rename_i hstart
    refine hcount.2 fun front x back hmoves hx => ?_
    subst hmoves
    obtain ⟨hx, -⟩ := (Bool.and_eq_true _ _).mp hx
    have hsplit : (front ++ x :: back).map Move.event =
        front.map Move.event ++ x.event :: back.map Move.event := by simp
    obtain ⟨⟨issue, hread, hfree⟩, -⟩ := takesReady_after (hsplit ▸ h) hx
    exact exists_gives_read hwalk hstart hread hfree.2.1

/-- No run of the job marks an issue as ready. -/
theorem asks_marks {front back : List (ApiTagged ι)} {event : ApiTagged ι}
    (h : Interleaved (fun i => (parties i).program) (front ++ event :: back))
    (hmarks : marksReady number event = true) : (parties event.op.1).group = none := by
  cases hparty : parties event.op.1 with
  | other script => rfl
  | dispatch context available request =>
    have hasks : DispatchAsks request (front.filterMap (own event.op.1)) event.op.2 := by
      obtain ⟨⟨i, op⟩, answer⟩ := event
      refine interleaved_emitsAfter h ?_
      have hparty' : parties i = .dispatch context available request := hparty
      rw [hparty']
      exact dispatch_asks context available request
    rw [marksReady, hasks.2.2 number] at hmarks
    cases hmarks

/-- **An agent is run on an issue no more often than the issue was marked as ready**, at the
beginning or by anybody else, and not counting where the label could not be taken off; and only on
an issue that the same run has found open and ready, and neither claimed nor blocked. -/
theorem agents_le_ready (hwalk : Walk (Shared apiStep) start moves s)
    (h : Interleaved (fun i => (parties i).program) (moves.map Move.event))
    (hserial : Serial (fun i => (parties i).group) (moves.map Move.event)) :
    moves.countP (fun move => runsAgent parties number move.event) ≤
        moves.countP (fun move => marksReady number move.event) +
          (if ready ∈ labelsOf start number then 1 else 0) +
          moves.countP (leftOn parties number) ∧
      ∀ front move back, moves = front ++ move :: back →
        (marksReady number move.event = true → (parties move.event.op.1).group = none) ∧
        (runsAgent parties number move.event = true →
          ∃ earlier ∈ front, earlier.event.op.1 = move.event.op.1 ∧
          ∃ issue, earlier.before.find? (fun issue => issue.number = number) = some issue ∧
            Free issue) := by
  constructor
  · have hagents : (moves.map Move.event).countP (runsAgent parties number) ≤ _ :=
      runsAgent_le h hserial
    have htaken : moves.countP (takenOff parties number) ≤ _ := takenOff_le hwalk h hserial
    have hdivide :=
      List.countP_eq_countP_filter_add moves (fun move => takesReady parties number move.event)
      fun move => ready ∉ labelsOf move.after number
    rw [List.countP_filter, List.countP_filter] at hdivide
    have hleft : moves.countP (leftOn parties number) = moves.countP fun move =>
        takesReady parties number move.event && !decide (ready ∉ labelsOf move.after number) := by
      refine List.countP_congr fun move _ => ?_
      simp [leftOn]
    rw [List.countP_map, List.countP_map] at hagents
    rw [hleft]
    calc moves.countP (fun move => runsAgent parties number move.event)
        ≤ moves.countP (fun move => takesReady parties number move.event) := hagents
      _ = _ := hdivide
      _ ≤ _ := Nat.add_le_add_right htaken _
  · rintro front move back rfl
    rw [List.map_append, List.map_cons] at h
    refine ⟨fun hmarks => asks_marks h hmarks, fun hruns => ?_⟩
    obtain ⟨himplements, prompt, hop⟩ := runsAgent_eq hruns
    obtain ⟨⟨op, answer⟩, hremoved, hremove⟩ :=
      ((asks_in h himplements).2.1 prompt hop).2 number rfl
    obtain ⟨removal, hremoval, hevent⟩ := List.mem_map.mp (mem_own hremoved)
    obtain ⟨first, rest, rfl⟩ := List.append_of_mem hremoval
    have howner : removal.event.op.1 = move.event.op.1 := by rw [hevent]
    have htakes : takesReady parties number removal.event = true := by
      simp only [takesReady, howner, himplements, Bool.true_and]
      rw [hevent]
      exact decide_eq_true hremove
    have hsplit : ((first ++ removal :: rest).map Move.event ++ move.event :: back.map Move.event) =
        first.map Move.event ++ removal.event ::
          (rest.map Move.event ++ move.event :: back.map Move.event) := by simp
    obtain ⟨⟨issue, hread, hfree⟩, -⟩ := takesReady_after (hsplit ▸ h) htakes
    rw [List.append_assoc] at hwalk
    obtain ⟨m, hfirst, -⟩ := walk_rest hwalk rfl
    obtain ⟨earlier, found, later, rfl, hfinder, hfound⟩ := exists_read hfirst hread
    exact ⟨found, by simp, hfinder.trans howner, issue, hfound, hfree⟩

end Interleavings

/-- Somebody marks an issue as ready, and the job is dispatched twice for it. -/
def marking (i : ℕ) : Party :=
  if i = 0 then .other (addLabels 7 [ready]) else .dispatch atWork true (.implement 7)

/-- It is marked before the first run reads it; the second begins when the first has come to its
end. -/
def markingMoves : List (ApiMove ℕ) × List IssueSummary :=
  schedule (answerApi ⟨true, [], []⟩ [lit "agent/issue-7-x"] [])
    [0, 1, 1, 1, 1, 1, 1, 1, 2, 2, 2, 2] (fun i => (marking i).program) twoIssues

/-- Only the first of them runs the agent. -/
theorem agents_le_ready_marking :
    (markingMoves.1.map fun move => move.event.op.1).dedup = [0, 1, 2] ∧
    (markingMoves.1.countP fun move => runsAgent marking 7 move.event) = 1 ∧
    1 ≤ (markingMoves.1.countP fun move => marksReady 7 move.event) + 0 +
      markingMoves.1.countP (leftOn marking 7) := by
  have hwalk : Walk (Shared apiStep) twoIssues markingMoves.1 markingMoves.2 :=
    walk_schedule (answerApi ⟨true, [], []⟩ [lit "agent/issue-7-x"] []) _
      (fun _ _ _ _ h => (calm_answerApi h).2) _ _
  have hserial : Serial (fun i => (marking i).group) (markingMoves.1.map Move.event) :=
    serial_of_turns (by decide +kernel)
  have hready : _ ≤ (markingMoves.1.countP fun move => marksReady 7 move.event) + _ + _ ∧ _ :=
    agents_le_ready hwalk (interleaved_schedule _ _ _ _) hserial
  have hagents : (markingMoves.1.countP fun move => runsAgent marking 7 move.event) = 1 := by
    decide +kernel
  have hstart : ready ∉ labelsOf twoIssues 7 := by decide +kernel
  rw [hagents, if_neg hstart] at hready
  exact ⟨by decide +kernel, hagents, hready.1⟩

end Newsdeck.Workflows

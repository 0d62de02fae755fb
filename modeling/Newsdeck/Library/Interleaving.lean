import Mathlib.Logic.Function.Basic
import Newsdeck.Library.Precedence

/-!
# Programs that run side by side

Several programs share a world.  An event belongs to one of them, and each has seen a run of its
own; the order in which their events take place is arbitrary.

* `Interleaved` — the events are an interleaving of runs;
* `interleaved_split` — an event of a program, after what that program has done before;
* `Walk` — the moves of the world, each with the state before it and the state after it;
* `Along` — what holds of every move, given the moves before it;
* `walk_split`, `walk_keeps`, `walk_always` — a walk up to a move, and invariants of walks;
* `schedule` — the programs of a world that is given by a function, taking turns.
-/

namespace Effects

variable {Op : Type} {Ans : Op → Type} {ε α ι σ : Type}

/-- What a run has done up to some point is a run, too. -/
theorem run_prefix {p : Prog Op Ans ε α} {before after : List (Event Op Ans)}
    {outcome : Outcome ε α}
    (h : Run p (before ++ after) outcome) : ∃ outcome', Run p before outcome' := by
  induction before generalizing p with
  | nil =>
    cases p with
    | ret a => exact ⟨_, .ret a⟩
    | throw e => exact ⟨_, .throw e⟩
    | call op next => exact ⟨_, .interrupt op next⟩
  | cons event before ih =>
    cases h with
    | call op next answer trace _ rest =>
      obtain ⟨outcome', hbefore⟩ := ih rest
      exact ⟨outcome', .call op next answer before outcome' hbefore⟩

/-- The same program, whatever it returns or throws. -/
def Prog.silence : Prog Op Ans ε α → Prog Op Ans Unit Unit
  | .ret _ => .ret ()
  | .throw _ => .throw ()
  | .call op next => .call op fun answer => (next answer).silence

theorem emitsAfter_silence {P : List (Event Op Ans) → Op → Prop} {p : Prog Op Ans ε α} :
    ∀ {log : List (Event Op Ans)}, EmitsAfter P log p → EmitsAfter P log p.silence := by
  induction p with
  | ret a => exact fun _ => trivial
  | throw e => exact fun _ => trivial
  | call op next ih => exact fun hp => ⟨hp.1, fun answer => ih answer (hp.2 answer)⟩

/-! ### Interleavings -/

/-- The answer to an operation does not depend on who asks. -/
abbrev TaggedAns (ι : Type) (Ans : Op → Type) (tagged : ι × Op) : Type := Ans tagged.2

/-- An event, and whose it is. -/
abbrev Tagged (ι Op : Type) (Ans : Op → Type) := Event (ι × Op) (TaggedAns ι Ans)

/-- A world in which it does not matter who performs an operation. -/
def Shared (step : σ → Event Op Ans → σ → Prop) (s : σ) (event : Tagged ι Op Ans) (t : σ) : Prop :=
  step s ⟨event.op.2, event.answer⟩ t

section Own

variable [DecidableEq ι]

/-- The event, when it is the program's own. -/
def own (i : ι) (event : Tagged ι Op Ans) : Option (Event Op Ans) :=
  if event.op.1 = i then some ⟨event.op.2, event.answer⟩ else none

/-- The events are an interleaving of runs of the programs. -/
def Interleaved (program : ι → Prog Op Ans ε α) (trace : List (Tagged ι Op Ans)) : Prop :=
  ∀ i, ∃ outcome, Run (program i) (trace.filterMap (own i)) outcome

variable {program : ι → Prog Op Ans ε α} {before after : List (Tagged ι Op Ans)}

theorem Interleaved.initial (h : Interleaved program (before ++ after)) :
    Interleaved program before := by
  intro i
  obtain ⟨outcome, hrun⟩ := h i
  rw [List.filterMap_append] at hrun
  exact run_prefix hrun

/-- Every event is an operation its program may perform. -/
theorem interleaved_emits {P : ι → Op → Prop} {trace : List (Tagged ι Op Ans)}
    (h : Interleaved program trace) (hemits : ∀ i, (program i).Emits (P i)) :
    ∀ event ∈ trace, P event.op.1 event.op.2 := by
  rintro ⟨⟨i, op⟩, answer⟩ hevent
  obtain ⟨outcome, hrun⟩ := h i
  have hown : (⟨op, answer⟩ : Event Op Ans) ∈ trace.filterMap (own i) :=
    List.mem_filterMap.mpr ⟨_, hevent, if_pos rfl⟩
  exact run_emits hrun (hemits i) _ hown

theorem interleaved_split {i : ι} {op : Op} {answer : Ans op}
    (h : Interleaved program (before ++ ⟨(i, op), answer⟩ :: after)) :
    ∃ outcome, Run (program i)
      (before.filterMap (own i) ++ ⟨op, answer⟩ :: after.filterMap (own i)) outcome := by
  obtain ⟨outcome, hrun⟩ := h i
  have hsome : own i (⟨(i, op), answer⟩ : Tagged ι Op Ans) = some ⟨op, answer⟩ := if_pos rfl
  rw [List.filterMap_append, List.filterMap_cons_some hsome] at hrun
  exact ⟨outcome, hrun⟩

/-- What a program has done before an event of its own. -/
theorem interleaved_emitsAfter {P : List (Event Op Ans) → Op → Prop} {i : ι} {op : Op}
    {answer : Ans op} (h : Interleaved program (before ++ ⟨(i, op), answer⟩ :: after))
    (hp : EmitsAfter P [] (program i)) : P (before.filterMap (own i)) op := by
  obtain ⟨outcome, hrun⟩ := interleaved_split h
  exact run_emitsAfter hrun hp

theorem mem_own {i : ι} {trace : List (Tagged ι Op Ans)} {op : Op} {answer : Ans op}
    (h : ⟨op, answer⟩ ∈ trace.filterMap (own i)) : ⟨(i, op), answer⟩ ∈ trace := by
  obtain ⟨⟨⟨j, op'⟩, answer'⟩, hmem, hown⟩ := List.mem_filterMap.mp h
  unfold own at hown
  split at hown
  · rename_i hij
    obtain rfl : j = i := hij
    cases hown
    exact hmem
  · cases hown

/-- Where a program's first event is. -/
theorem own_first {i : ι} {trace : List (Tagged ι Op Ans)} {first : Event Op Ans}
    {rest : List (Event Op Ans)} (h : trace.filterMap (own i) = first :: rest) :
    ∃ earlier later, trace = earlier ++ ⟨(i, first.op), first.answer⟩ :: later ∧
      (∀ event ∈ earlier, event.op.1 ≠ i) ∧ later.filterMap (own i) = rest := by
  induction trace with
  | nil => simp at h
  | cons event trace ih =>
    by_cases hown : event.op.1 = i
    · have hsome : own i event = some ⟨event.op.2, event.answer⟩ := if_pos hown
      rw [List.filterMap_cons_some hsome] at h
      obtain ⟨rfl, rfl⟩ := List.cons.inj h
      obtain ⟨⟨j, op⟩, answer⟩ := event
      obtain rfl : j = i := hown
      exact ⟨[], trace, rfl, by simp, rfl⟩
    · have hnone : own i event = none := if_neg hown
      rw [List.filterMap_cons_none hnone] at h
      obtain ⟨earlier, later, rfl, hearlier, hlater⟩ := ih h
      refine ⟨event :: earlier, later, rfl, ?_, hlater⟩
      intro e he
      rcases List.mem_cons.mp he with rfl | he
      · exact hown
      · exact hearlier e he

end Own

/-! ### Walks -/

/-- One event, with the states before and after it. -/
structure Move (σ Op : Type) (Ans : Op → Type) where
  before : σ
  event : Event Op Ans
  after : σ

/-- The moves of the world from `start`, one after the other, and where they lead. -/
inductive Walk (step : σ → Event Op Ans → σ → Prop) (start : σ) : List (Move σ Op Ans) → σ → Prop
  | nil : Walk step start [] start
  | snoc {moves : List (Move σ Op Ans)} {s : σ} (walked : Walk step start moves s)
      (event : Event Op Ans) (t : σ) (last : step s event t) :
      Walk step start (moves ++ [⟨s, event, t⟩]) t

/-- Every move has the property, given the moves before it. -/
def Along (P : List (Move σ Op Ans) → Move σ Op Ans → Prop) (moves : List (Move σ Op Ans)) : Prop :=
  ∀ before move after, moves = before ++ move :: after → P before move

theorem along_nil {P : List (Move σ Op Ans) → Move σ Op Ans → Prop} : Along P [] := by
  intro before move after h
  simp at h

theorem along_cons {P : List (Move σ Op Ans) → Move σ Op Ans → Prop} {first : Move σ Op Ans}
    {rest : List (Move σ Op Ans)} (hfirst : P [] first)
    (hrest : Along (fun before => P (first :: before)) rest) : Along P (first :: rest) := by
  intro before move after h
  cases before with
  | nil =>
    obtain ⟨rfl, -⟩ := List.cons.inj h
    exact hfirst
  | cons other before =>
    obtain ⟨rfl, hlater⟩ := List.cons.inj h
    exact hrest before move after hlater

/-- A property that does not depend on the moves before. -/
theorem along_of_forall {P : Move σ Op Ans → Prop} {moves : List (Move σ Op Ans)}
    (h : ∀ move ∈ moves, P move) : Along (fun _ => P) moves := by
  intro before move after hmoves
  exact h move (by simp [hmoves])

theorem Along.initial {P : List (Move σ Op Ans) → Move σ Op Ans → Prop}
    {before after : List (Move σ Op Ans)} (h : Along P (before ++ after)) : Along P before := by
  intro b m a heq
  exact h b m (a ++ after) (by rw [heq]; simp)

section Walks

variable {step : σ → Event Op Ans → σ → Prop} {start s : σ}
    {moves before after : List (Move σ Op Ans)}
  {move : Move σ Op Ans}

/-- The walk up to a move, and the move. -/
theorem walk_split (h : Walk step start moves s) (hmoves : moves = before ++ move :: after) :
    Walk step start before move.before ∧ step move.before move.event move.after := by
  induction h generalizing after with
  | nil => simp at hmoves
  | @snoc moves s walked event t last ih =>
    rcases List.eq_nil_or_concat after with rfl | ⟨rest, final, rfl⟩
    · obtain ⟨rfl, hlast⟩ := List.append_inj' hmoves rfl
      cases hlast
      exact ⟨walked, last⟩
    · have hcons : before ++ move :: (rest ++ [final]) =
        (before ++ move :: rest) ++ [final] := by simp
      rw [List.concat_eq_append, hcons] at hmoves
      exact ih (List.append_inj' hmoves rfl).1

/-- The walk from one move on. -/
theorem walk_rest (h : Walk step start moves s) (hmoves : moves = before ++ after) :
    ∃ m, Walk step start before m ∧ Walk step m after s := by
  induction h generalizing after with
  | nil =>
    obtain ⟨rfl, rfl⟩ := List.append_eq_nil_iff.mp hmoves.symm
    exact ⟨start, .nil, .nil⟩
  | @snoc moves s walked event t last ih =>
    rcases List.eq_nil_or_concat after with rfl | ⟨rest, final, rfl⟩
    · rw [List.append_nil] at hmoves
      subst hmoves
      exact ⟨t, .snoc walked event t last, .nil⟩
    · rw [List.concat_eq_append, ← List.append_assoc] at hmoves
      obtain ⟨hmoves, hfinal⟩ := List.append_inj' hmoves rfl
      obtain ⟨m, hbefore, hafter⟩ := ih hmoves
      cases hfinal
      rw [List.concat_eq_append]
      exact ⟨m, hbefore, .snoc hafter event t last⟩

/-- The walk that follows a move. -/
theorem walk_from (h : Walk step start (before ++ move :: after) s) :
    Walk step move.after after s := by
  have hsplit : before ++ move :: after = (before ++ [move]) ++ after := by simp
  obtain ⟨m, hbefore, hafter⟩ := walk_rest h hsplit
  generalize hfirst : before ++ [move] = first at hbefore
  cases hbefore with
  | nil => simp at hfirst
  | snoc _ event _ _ =>
    obtain ⟨-, hmove⟩ := List.append_inj' hfirst rfl
    cases hmove
    exact hafter

/-- **Invariants** of the state and of the moves that have led to it, kept by every move that meets
a condition. -/
theorem walk_past (inv : List (Move σ Op Ans) → σ → Prop) (h : Walk step start moves s)
    (hstart : inv [] start)
    (hkeep : ∀ before move after, moves = before ++ move :: after → inv before move.before →
      step move.before move.event move.after →
        inv (before ++ [move]) move.after) : inv moves s := by
  induction h with
  | nil => exact hstart
  | @snoc moves s walked event t last ih =>
    refine hkeep moves ⟨s, event, t⟩ [] rfl (ih fun before move after hmoves => ?_) last
    refine hkeep before move (after ++ [⟨s, event, t⟩]) ?_
    rw [hmoves]
    simp

/-- Invariants of the state alone. -/
theorem walk_keeps (inv : σ → Prop) (h : Walk step start moves s) (hstart : inv start)
    (hkeep : ∀ before move after, moves = before ++ move :: after → inv move.before →
      step move.before move.event move.after → inv move.after) : inv s :=
  walk_past (fun _ => inv) h hstart hkeep

/-- What every move keeps that meets a condition holds before and after each move. -/
theorem walk_always (inv : σ → Prop) (h : Walk step start moves s) (hstart : inv start)
    (hkeep : ∀ before move after, moves = before ++ move :: after → inv move.before →
      step move.before move.event move.after → inv move.after) :
    ∀ move ∈ moves, inv move.before ∧ inv move.after := by
  intro move hmove
  obtain ⟨before, after, rfl⟩ := List.append_of_mem hmove
  obtain ⟨hwalk, hstep⟩ := walk_split h rfl
  have hbefore : inv move.before := walk_keeps inv hwalk hstart fun b m a heq =>
    hkeep b m (a ++ move :: after) (by rw [heq]; simp)
  exact ⟨hbefore, hkeep before move after rfl hbefore hstep⟩

theorem walk_cons {m t : σ} {event : Event Op Ans} (first : step start event m)
    (h : Walk step m moves t) : Walk step start (⟨start, event, m⟩ :: moves) t := by
  induction h with
  | nil => exact .snoc .nil event m first
  | snoc _ event' t' last ih => exact .snoc ih event' t' last

end Walks

/-! ### Taking turns -/

section Schedules

variable [DecidableEq ι]

/-- The programs take turns: the one whose turn it is performs its next operation, if it has one. -/
def schedule (world : σ → (op : Op) → Option (Ans op × σ)) :
    List ι → (ι → Prog Op Ans ε α) → σ → List (Move σ (ι × Op) (TaggedAns ι Ans)) × σ
  | [], _, s => ([], s)
  | i :: turns, program, s =>
      match program i with
      | .call op next =>
          match world s op with
          | none => schedule world turns program s
          | some (answer, t) =>
              let rest := schedule world turns (Function.update program i (next answer)) t
              (⟨s, ⟨(i, op), answer⟩, t⟩ :: rest.1, rest.2)
      | _ => schedule world turns program s

variable (world : σ → (op : Op) → Option (Ans op × σ)) (turns : List ι)

theorem interleaved_schedule : ∀ (program : ι → Prog Op Ans ε α) (s : σ),
    Interleaved program ((schedule world turns program s).1.map Move.event) := by
  induction turns with
  | nil =>
    intro program s i
    cases hprogram : program i with
    | ret a => exact ⟨_, .ret a⟩
    | throw e => exact ⟨_, .throw e⟩
    | call op next => exact ⟨_, .interrupt op next⟩
  | cons j turns ih =>
    intro program s
    unfold schedule
    cases hprogram : program j with
    | ret a => exact ih program s
    | throw e => exact ih program s
    | call op next =>
      dsimp only
      cases hworld : world s op with
      | none => exact ih program s
      | some answered =>
        obtain ⟨answer, t⟩ := answered
        intro i
        obtain ⟨outcome, hrest⟩ := ih (Function.update program j (next answer)) t i
        refine ⟨outcome, ?_⟩
        rw [List.map_cons]
        by_cases hij : j = i
        · subst hij
          rw [Function.update_self] at hrest
          have hsome : own j (⟨(j, op), answer⟩ : Tagged ι Op Ans) = some ⟨op, answer⟩ := if_pos rfl
          rw [hprogram, List.filterMap_cons_some hsome]
          exact .call op next answer _ outcome hrest
        · rw [Function.update_of_ne (Ne.symm hij)] at hrest
          have hnone : own i (⟨(j, op), answer⟩ : Tagged ι Op Ans) = none := if_neg hij
          rwa [List.filterMap_cons_none hnone]

theorem walk_schedule {step : σ → Event Op Ans → σ → Prop}
    (hworld : ∀ s op answer t, world s op = some (answer, t) → step s ⟨op, answer⟩ t) :
    ∀ (program : ι → Prog Op Ans ε α) (s : σ),
      Walk (Shared step) s (schedule world turns program s).1
        (schedule world turns program s).2 := by
  induction turns with
  | nil => exact fun _ _ => .nil
  | cons j turns ih =>
    intro program s
    unfold schedule
    cases hprogram : program j with
    | ret a => exact ih program s
    | throw e => exact ih program s
    | call op next =>
      dsimp only
      cases hanswer : world s op with
      | none => exact ih program s
      | some answered => exact walk_cons (hworld s op _ _ hanswer) (ih _ _)

end Schedules

end Effects

import Newsdeck.Library.Effects

/-!
# Calls made one after the other

A history is a list of calls, each with the events of its run and the way the run ended.  The next
call starts in the world the last one left behind, wherever that one was interrupted.

* `History` — the histories of a family of programs, and the state each leads to;
* `History.keeps` — what every run of every call keeps, at its end and wherever it is interrupted,
  holds after every history;
* `play` — the run of a program in a world that is given by a function;
* `run_play`, `steps_play`, `mem_play` — it is a run, the world moved by it, and answered its events;
* `playAll`, `history_playAll`, `mem_playAll` — the same for calls made one after the other.
-/

namespace Effects

variable {Op : Type} {Ans : Op → Type} {ε α ι σ τ : Type}

/-- A call, what its run did, and how the run ended. -/
structure Made (ι Op : Type) (Ans : Op → Type) (ε α : Type) where
  call : ι
  trace : List (Event Op Ans)
  outcome : Outcome ε α

/-- The calls were made one after the other, each to some end. -/
inductive History (step : σ → Event Op Ans → σ → Prop) (program : ι → Prog Op Ans ε α) (start : σ) :
    List (Made ι Op Ans ε α) → σ → Prop
  | nil : History step program start [] start
  | snoc {made : List (Made ι Op Ans ε α)} {s t : σ} (before : History step program start made s)
      (call : ι) (trace : List (Event Op Ans)) (outcome : Outcome ε α)
      (run : Run (program call) trace outcome) (steps : Steps step s trace t) :
      History step program start (made ++ [⟨call, trace, outcome⟩]) t

/-- A run of the program leads from one state to another. -/
def Leads (step : σ → Event Op Ans → σ → Prop) (p : Prog Op Ans ε α) (s : σ) (outcome : Outcome ε α)
    (t : σ) : Prop :=
  ∃ trace, Run p trace outcome ∧ Steps step s trace t

theorem Ensures.leads {step : σ → Event Op Ans → σ → Prop} {crash : σ → Prop} {exc : ε → σ → Prop}
    {p : Prog Op Ans ε α} {s t : σ} {post : α → σ → Prop} {outcome : Outcome ε α}
    (h : Ensures step crash exc p s post) (hleads : Leads step p s outcome t) :
    Meets crash exc post outcome t := by
  obtain ⟨trace, hrun, hsteps⟩ := hleads
  exact h trace outcome t hrun hsteps

/-- Every call of a history was run. -/
theorem History.ran {step : σ → Event Op Ans → σ → Prop} {program : ι → Prog Op Ans ε α} {start s : σ}
    {made : List (Made ι Op Ans ε α)} (h : History step program start made s) :
    ∀ m ∈ made, ∃ t u, Run (program m.call) m.trace m.outcome ∧ Steps step t m.trace u := by
  induction h with
  | nil => simp
  | snoc _ call trace outcome run steps ih =>
    intro m hm
    rcases List.mem_append.mp hm with hm | hm
    · exact ih m hm
    · obtain rfl := List.mem_singleton.mp hm
      exact ⟨_, _, run, steps⟩

section Keeps

variable {step : σ → Event Op Ans → σ → Prop} {program : ι → Prog Op Ans ε α} {start s : σ}
  {made : List (Made ι Op Ans ε α)}

/-- **Invariants**, kept by the calls that were made. -/
theorem History.keeps_of {P : ι → Prop} {inv : σ → Prop} (h : History step program start made s)
    (hmade : ∀ m ∈ made, P m.call)
    (hkeep : ∀ call s, P call → inv s →
      Ensures step inv (fun _ => inv) (program call) s fun _ => inv)
    (hstart : inv start) : inv s := by
  induction h with
  | nil => exact hstart
  | snoc _ call trace outcome run steps ih =>
    have hbefore := ih fun m hm => hmade m (List.mem_append_left _ hm)
    have hmeets := hkeep call _ (hmade ⟨call, trace, outcome⟩ (by simp)) hbefore trace outcome _ run steps
    cases outcome with
    | returned a => exact hmeets
    | threw e => exact hmeets
    | interrupted => exact hmeets

/-- **Invariants.** -/
theorem History.keeps {inv : σ → Prop} (h : History step program start made s)
    (hkeep : ∀ call s, inv s → Ensures step inv (fun _ => inv) (program call) s fun _ => inv)
    (hstart : inv start) : inv s :=
  h.keeps_of (P := fun _ => True) (fun _ _ => trivial) (fun call s _ => hkeep call s) hstart

end Keeps

/-! ### Worlds given by a function -/

/-- The run of a program in a world that answers an operation and moves on, or interrupts the program
before it. -/
def play (world : τ → (op : Op) → Option (Ans op × τ)) :
    Prog Op Ans ε α → τ → List (Event Op Ans) × Outcome ε α × τ
  | .ret a, s => ([], .returned a, s)
  | .throw e, s => ([], .threw e, s)
  | .call op next, s =>
      match world s op with
      | none => ([], .interrupted, s)
      | some (answer, s') =>
          let rest := play world (next answer) s'
          (⟨op, answer⟩ :: rest.1, rest.2)

variable (world : τ → (op : Op) → Option (Ans op × τ))

theorem run_play (p : Prog Op Ans ε α) (s : τ) : Run p (play world p s).1 (play world p s).2.1 := by
  induction p generalizing s with
  | ret a => exact .ret a
  | throw e => exact .throw e
  | call op next ih =>
    unfold play
    cases hworld : world s op with
    | none => exact .interrupt op next
    | some moved => exact .call op next moved.1 _ _ (ih moved.1 moved.2)

theorem steps_play {step : σ → Event Op Ans → σ → Prop} (view : τ → σ)
    (h : ∀ s op answer s', world s op = some (answer, s') → step (view s) ⟨op, answer⟩ (view s'))
    (p : Prog Op Ans ε α) (s : τ) :
    Steps step (view s) (play world p s).1 (view (play world p s).2.2) := by
  induction p generalizing s with
  | ret a => exact .nil _
  | throw e => exact .nil _
  | call op next ih =>
    unfold play
    cases hworld : world s op with
    | none => exact .nil _
    | some moved => exact .cons (h s op moved.1 moved.2 hworld) (ih moved.1 moved.2)

/-- The events are what the world answered. -/
theorem mem_play {p : Prog Op Ans ε α} {s : τ} {event : Event Op Ans}
    (h : event ∈ (play world p s).1) : ∃ s s', world s event.op = some (event.answer, s') := by
  induction p generalizing s with
  | ret a => exact absurd h List.not_mem_nil
  | throw e => exact absurd h List.not_mem_nil
  | call op next ih =>
    unfold play at h
    cases hworld : world s op with
    | none =>
      rw [hworld] at h
      exact absurd h List.not_mem_nil
    | some moved =>
      rw [hworld] at h
      rcases List.mem_cons.mp h with rfl | h
      · exact ⟨s, moved.2, hworld⟩
      · exact ih moved.1 h

/-- The calls made one after the other, each in its own world. -/
def playAll (program : ι → Prog Op Ans ε α) :
    List (ι × (τ → (op : Op) → Option (Ans op × τ))) → τ → List (Made ι Op Ans ε α) × τ
  | [], s => ([], s)
  | (call, world) :: calls, s =>
      let first := play world (program call) s
      let rest := playAll program calls first.2.2
      (⟨call, first.1, first.2.1⟩ :: rest.1, rest.2)

theorem history_playAll {step : σ → Event Op Ans → σ → Prop} {program : ι → Prog Op Ans ε α}
    (view : τ → σ) {start : σ} (calls : List (ι × (τ → (op : Op) → Option (Ans op × τ)))) :
    ∀ (made : List (Made ι Op Ans ε α)) (s : τ), History step program start made (view s) →
      (∀ call ∈ calls, ∀ s op answer s', call.2 s op = some (answer, s') →
        step (view s) ⟨op, answer⟩ (view s')) →
      History step program start (made ++ (playAll program calls s).1)
        (view (playAll program calls s).2) := by
  induction calls with
  | nil =>
    intro made s h _
    rw [show made ++ (playAll program [] s).1 = made from List.append_nil made]
    exact h
  | cons call calls ih =>
    intro made s h hworld
    have hstep := hworld call (by simp)
    have hfirst := h.snoc call.1 _ _ (run_play call.2 (program call.1) s)
      (steps_play call.2 view hstep (program call.1) s)
    have hrest := ih _ _ hfirst fun c hc => hworld c (by simp [hc])
    rw [List.append_assoc] at hrest
    exact hrest

/-- Every call that was made is one of them, answered by its own world. -/
theorem mem_playAll {program : ι → Prog Op Ans ε α}
    {calls : List (ι × (τ → (op : Op) → Option (Ans op × τ)))} {s : τ} {m : Made ι Op Ans ε α}
    (h : m ∈ (playAll program calls s).1) :
    ∃ call ∈ calls, m.call = call.1 ∧
      ∀ event ∈ m.trace, ∃ s s', call.2 s event.op = some (event.answer, s') := by
  induction calls generalizing s with
  | nil => exact absurd h List.not_mem_nil
  | cons call calls ih =>
    rcases List.mem_cons.mp h with rfl | h
    · exact ⟨call, List.mem_cons_self, rfl, fun event hevent => mem_play call.2 hevent⟩
    · obtain ⟨call', hcall', hm⟩ := ih h
      exact ⟨call', List.mem_cons_of_mem _ hcall', hm⟩

end Effects

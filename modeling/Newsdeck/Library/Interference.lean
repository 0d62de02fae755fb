import Newsdeck.Library.Interleaving

/-!
# Programs amid the acts of others

Between two events of a program others may change the world.

* `Amid` — the moves of the program itself, with what the others do in between;
* `Recorded` — the world that keeps only these moves: each took place in some state;
* `Amid.steps` — a run amid others is a run in that world, whatever the others do;
* `amid_of_steps` — how a world that shows the others is such a run;
* `Amid.lasts` — what the program and the others keep holds from a move of the program on.
-/

namespace Effects

variable {Op : Type} {Ans : Op → Type} {σ : Type}

/-- The moves of a program from a state on, while others act between any two of them. -/
inductive Amid (others : σ → σ → Prop) (step : σ → Event Op Ans → σ → Prop) :
    σ → List (Move σ Op Ans) → σ → Prop
  | nil (s : σ) : Amid others step s [] s
  | others {s u t : σ} {moves : List (Move σ Op Ans)} (act : others s u)
      (rest : Amid others step u moves t) : Amid others step s moves t
  | own {s u t : σ} {event : Event Op Ans} {moves : List (Move σ Op Ans)} (first : step s event u)
      (rest : Amid others step u moves t) : Amid others step s (⟨s, event, u⟩ :: moves) t

/-- The moves so far; nothing is known of the states in which they took place. -/
def Recorded (step : σ → Event Op Ans → σ → Prop) (moves : List (Move σ Op Ans))
    (event : Event Op Ans) (moves' : List (Move σ Op Ans)) : Prop :=
  ∃ s t, step s event t ∧ moves' = moves ++ [⟨s, event, t⟩]

section Runs

variable {others : σ → σ → Prop} {step : σ → Event Op Ans → σ → Prop} {s t : σ}
  {moves : List (Move σ Op Ans)}

theorem Amid.steps (h : Amid others step s moves t) : ∀ earlier : List (Move σ Op Ans),
    Steps (Recorded step) earlier (moves.map Move.event) (earlier ++ moves) := by
  induction h with
  | nil s =>
    intro earlier
    rw [List.append_nil]
    exact .nil earlier
  | others _ _ ih => exact ih
  | @own s u t event moves first _ ih =>
    intro earlier
    have hrest := ih (earlier ++ [⟨s, event, u⟩])
    rw [List.append_assoc, List.singleton_append] at hrest
    exact .cons ⟨s, u, first, rfl⟩ hrest

/-- **Amid others.**  What holds after the runs of a program in the world of its own moves. -/
theorem Ensures.amid {ε α : Type} {p : Prog Op Ans ε α} {crash : List (Move σ Op Ans) → Prop}
    {exc : ε → List (Move σ Op Ans) → Prop} {post : α → List (Move σ Op Ans) → Prop} {a : α}
    (h : Ensures (Recorded step) crash exc p [] post) (hamid : Amid others step s moves t)
    (hrun : Run p (moves.map Move.event) (.returned a)) : post a moves :=
  h _ _ _ hrun (hamid.steps [])

/-- A world that shows what others do before each event. -/
theorem amid_of_steps {τ : Type} {whole : τ → Event Op Ans → τ → Prop} (view : τ → σ)
    (hwhole : ∀ w event w', whole w event w' → ∃ u, others (view w) u ∧ step u event (view w'))
    {w w' : τ} {trace : List (Event Op Ans)} (h : Steps whole w trace w') :
    ∃ moves, moves.map Move.event = trace ∧ Amid others step (view w) moves (view w') := by
  induction h with
  | nil w => exact ⟨[], rfl, .nil _⟩
  | cons first _ ih =>
    obtain ⟨moves, hmoves, hrest⟩ := ih
    obtain ⟨u, hact, hstep⟩ := hwhole _ _ _ first
    exact ⟨_ :: moves, by rw [List.map_cons, hmoves], .others hact (.own hstep hrest)⟩

theorem Amid.lasts {inv : σ → Prop} (h : Amid others step s moves t)
    (hothers : ∀ u v, others u v → inv u → inv v) (hstep : ∀ u event v, step u event v → inv u → inv v) :
    (inv s → inv t) ∧ ∀ move ∈ moves, inv move.before ∨ inv move.after → inv t := by
  induction h with
  | nil s => exact ⟨id, by simp⟩
  | others act _ ih => exact ⟨fun hs => ih.1 (hothers _ _ act hs), ih.2⟩
  | @own s u t event moves first _ ih =>
    refine ⟨fun hs => ih.1 (hstep s event u first hs), fun move hmove hinv => ?_⟩
    rcases List.mem_cons.mp hmove with rfl | hmove
    · exact ih.1 (hinv.elim (hstep s event u first) id)
    · exact ih.2 move hmove hinv

end Runs

end Effects

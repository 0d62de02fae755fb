import Mathlib.Data.List.Induction
import Newsdeck.Library.Effects

/-!
# Programs that follow an abstract machine

A program with effects follows a machine when the visible part of every run spells a path of the
machine.  What the machine's transitions keep in some world is then kept by the program.

* `Path` — the paths of a labelled transition relation;
* `Follows` — the visible events of every run spell a path, to a phase that fits the outcome;
* `Spells` — the same for a part of a program, which starts from a log that spells a path already;
* `spells_quiet`, `spells_call` — a part that cannot be seen, and an operation that can;
* `follows_of_spells` — the parts put together;
* `Follows.ensures` — an invariant indexed by the machine's phases, kept by every transition and by
  every invisible event, holds however the program ends.
-/

namespace Effects

variable {Op : Type} {Ans : Op → Type} {ε α : Type} {φ υ σ : Type}

/-- The paths of the transition relation from `start`. -/
inductive Path (trans : φ → υ → φ → Prop) (start : φ) : List υ → φ → Prop
  | nil : Path trans start [] start
  | snoc {log : List υ} {a b : φ} {v : υ} (before : Path trans start log a) (last : trans a v b) :
      Path trans start (log ++ [v]) b

theorem Path.last {trans : φ → υ → φ → Prop} {start b : φ} {log : List υ} {v : υ}
    (h : Path trans start (log ++ [v]) b) : ∃ a, Path trans start log a ∧ trans a v b := by
  generalize hlog : log ++ [v] = full at h
  cases h with
  | nil => simp at hlog
  | snoc before last =>
    obtain ⟨rfl, hv⟩ := List.append_inj' hlog rfl
    cases hv
    exact ⟨_, before, last⟩

/-- The visible events of every run spell a path of the machine, to a phase that fits how the run
ended. -/
def Follows (view : Event Op Ans → Option υ) (trans : φ → υ → φ → Prop) (start : φ)
    (fits : Outcome ε α → φ → Prop) (p : Prog Op Ans ε α) : Prop :=
  ∀ trace outcome, Run p trace outcome →
    ∃ a, Path trans start (trace.filterMap view) a ∧ fits outcome a

section Spelling

variable (view : Event Op Ans → Option υ) (trans : φ → υ → φ → Prop) (start : φ)

/-- From this log on, every run of the program stays on a path, and one that returns meets the
postcondition. -/
abbrev Spells (p : Prog Op Ans ε α) (log : List υ) (post : α → List υ → Prop) : Prop :=
  Ensures (Appends view) (fun log' => ∃ a, Path trans start log' a)
    (fun _ log' => ∃ a, Path trans start log' a) p log post

/-- Nothing of the operation can be seen. -/
def Silent (op : Op) : Prop := ∀ answer, view ⟨op, answer⟩ = none

variable {view trans start} {log : List υ} {a : φ} {β : Type}

theorem spells_quiet {p : Prog Op Ans ε α} (hp : p.Emits (Silent view))
    (h : Path trans start log a) :
    Spells view trans start p log fun _ log' => Path trans start log' a := by
  have hframe : Ensures (Appends view) (fun log' => log' = log) (fun _ log' => log' = log) p log
      fun _ log' => log' = log := by
    refine ensures_emits (fun log' => log' = log) hp (fun op answer s s' hop hs hstep => ?_) rfl
    have hnone : view ⟨op, answer⟩ = none := hop answer
    rw [Appends, hnone] at hstep
    rw [hstep, hs]
    simp
  refine hframe.mono ?_ ?_ ?_
  · rintro x _ rfl
    exact h
  · rintro e _ rfl
    exact ⟨a, h⟩
  · rintro _ rfl
    exact ⟨a, h⟩

/-- A part that cannot be seen, followed by the rest. -/
theorem spells_quiet_bind {p : Prog Op Ans ε α} {f : α → Prog Op Ans ε β}
    {post : β → List υ → Prop} (hp : p.Emits (Silent view)) (h : Path trans start log a)
    (hf : ∀ x log', Path trans start log' a → Spells view trans start (f x) log' post) :
    Spells view trans start (p >>= f) log post :=
  ensures_bind ((spells_quiet hp h).weaken fun x log' => hf x log')

/-- An operation that can be seen, and the transition it spells. -/
theorem spells_call {op : Op} {next : Ans op → Prog Op Ans ε α} {post : α → List υ → Prop}
    (event : Ans op → υ) (phase : Ans op → φ) (h : Path trans start log a)
    (hview : ∀ answer, view ⟨op, answer⟩ = some (event answer))
    (htrans : ∀ answer, trans a (event answer) (phase answer))
    (hnext : ∀ answer log', Path trans start log' (phase answer) →
      Spells view trans start (next answer) log' post) :
    Spells view trans start (.call op next) log post := by
  refine ensures_call ⟨a, h⟩ fun answer log' hstep => hnext answer log' ?_
  rw [Appends, hview answer] at hstep
  rw [hstep]
  exact h.snoc (htrans answer)

theorem follows_of_spells {fits : Outcome ε α → φ → Prop} {p : Prog Op Ans ε α}
    (h : Spells view trans start p [] fun x log => ∃ a, Path trans start log a ∧ fits (.returned x) a)
    (hthrew : ∀ e a, fits (.threw e) a) (hinterrupted : ∀ a, fits .interrupted a) :
    Follows view trans start fits p := by
  intro trace outcome hrun
  have hmeets := h trace outcome _ hrun (steps_appends view [] trace)
  rw [List.nil_append] at hmeets
  cases outcome with
  | returned x => exact hmeets
  | threw e =>
    obtain ⟨a, hpath⟩ := hmeets
    exact ⟨a, hpath, hthrew e a⟩
  | interrupted =>
    obtain ⟨a, hpath⟩ := hmeets
    exact ⟨a, hpath, hinterrupted a⟩

end Spelling

theorem Steps.last {step : σ → Event Op Ans → σ → Prop} {s t : σ} {event : Event Op Ans}
    {trace : List (Event Op Ans)} (h : Steps step s (trace ++ [event]) t) :
    ∃ m, Steps step s trace m ∧ step m event t := by
  induction trace generalizing s with
  | nil =>
    cases h with
    | cons first rest =>
      cases rest
      exact ⟨s, .nil s, first⟩
  | cons e trace ih =>
    cases h with
    | cons first rest =>
      obtain ⟨m, hsteps, hlast⟩ := ih rest
      exact ⟨m, .cons first hsteps, hlast⟩

section Keep

variable {view : Event Op Ans → Option υ} {trans : φ → υ → φ → Prop} {start : φ}
  {step : σ → Event Op Ans → σ → Prop} {P : Op → Prop} {inv : φ → σ → Prop}

/-- Along a trace whose visible part spells a path, the invariant moves with the phases. -/
theorem path_keeps
    (hquiet : ∀ a op answer s s', P op → view ⟨op, answer⟩ = none → inv a s →
      step s ⟨op, answer⟩ s' → inv a s')
    (hvisible : ∀ a b v op answer s s', P op → view ⟨op, answer⟩ = some v → trans a v b → inv a s →
      step s ⟨op, answer⟩ s' → inv b s')
    {s : σ} (hs : inv start s) (trace : List (Event Op Ans)) :
    ∀ (s' : σ) (b : φ), Steps step s trace s' → Path trans start (trace.filterMap view) b →
      (∀ event ∈ trace, P event.op) → inv b s' := by
  induction trace using List.reverseRecOn with
  | nil =>
    intro s' b hsteps hpath _
    cases hsteps
    generalize hlog : List.filterMap view [] = log at hpath
    cases hpath with
    | nil => exact hs
    | snoc _ _ => simp at hlog
  | append_singleton trace event ih =>
    intro s' b hsteps hpath hP
    obtain ⟨m, hbefore, hlast⟩ := hsteps.last
    have hPbefore : ∀ e ∈ trace, P e.op := fun e he => hP e (by simp [he])
    have hPlast : P event.op := hP event (by simp)
    cases hview : view event with
    | none =>
      simp only [List.filterMap_append, List.filterMap_cons, hview, List.filterMap_nil,
        List.append_nil] at hpath
      exact hquiet b event.op event.answer m s' hPlast hview (ih m b hbefore hpath hPbefore) hlast
    | some v =>
      simp only [List.filterMap_append, List.filterMap_cons, hview, List.filterMap_nil] at hpath
      obtain ⟨a, hpath, htrans⟩ := hpath.last
      exact hvisible a b v event.op event.answer m s' hPlast hview htrans
        (ih m a hbefore hpath hPbefore) hlast

/-- **Refinement.**  A program that follows the machine keeps what the machine keeps. -/
theorem Follows.ensures {fits : Outcome ε α → φ → Prop} {p : Prog Op Ans ε α}
    (h : Follows view trans start fits p) (inv : φ → σ → Prop) (hp : p.Emits P)
    (hquiet : ∀ a op answer s s', P op → view ⟨op, answer⟩ = none → inv a s →
      step s ⟨op, answer⟩ s' → inv a s')
    (hvisible : ∀ a b v op answer s s', P op → view ⟨op, answer⟩ = some v → trans a v b → inv a s →
      step s ⟨op, answer⟩ s' → inv b s')
    {s : σ} (hs : inv start s) :
    Ensures step (fun s' => ∃ a, fits .interrupted a ∧ inv a s')
      (fun e s' => ∃ a, fits (.threw e) a ∧ inv a s') p s
      fun x s' => ∃ a, fits (.returned x) a ∧ inv a s' := by
  intro trace outcome s' hrun hsteps
  obtain ⟨a, hpath, hfits⟩ := h trace outcome hrun
  have hinv := path_keeps hquiet hvisible hs trace s' a hsteps hpath (run_emits hrun hp)
  cases outcome with
  | returned x => exact ⟨a, hfits, hinv⟩
  | threw e => exact ⟨a, hfits, hinv⟩
  | interrupted => exact ⟨a, hfits, hinv⟩

end Keep

end Effects

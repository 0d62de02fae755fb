import Newsdeck.Library.Effects

/-!
# What a program has done before

An operation may depend on the answers the program was given before.

* `EmitsAfter` — every operation has a property, given the events before it;
* `emitsAfter_bind`, `emitsAfter_attempt`, `Emits.after` — a rule for each form;
* `run_emitsAfter` — so it has in every run;
* `Heeds` — moreover, what is returned or thrown meets a condition, given the events before it;
* `heeds_bind`, `heeds_attempt`, `heeds_raise`, `Heeds.emitsAfter` — a rule for each form;
* `Ensures.holds`, `Ensures.ended` — what holds however a run ends, and when it does;
* `ensures_noted` — what has happened stays on the list.
-/

namespace Effects

variable {Op : Type} {Ans : Op → Type} {ε α β : Type} {P : List (Event Op Ans) → Op → Prop}

/-- After the events of the log, every operation of the program has the property. -/
def EmitsAfter (P : List (Event Op Ans) → Op → Prop) : List (Event Op Ans) → Prog Op Ans ε α → Prop
  | _, .ret _ => True
  | _, .throw _ => True
  | log, .call op next => P log op ∧ ∀ answer, EmitsAfter P (log ++ [⟨op, answer⟩]) (next answer)

/-- What does not depend on the past. -/
theorem Prog.Emits.after {p : Prog Op Ans ε α} (h : p.Emits fun op => ∀ log, P log op) :
    ∀ log, EmitsAfter P log p := by
  induction p with
  | ret a => exact fun _ => trivial
  | throw e => exact fun _ => trivial
  | call op next ih => exact fun log => ⟨h.1 log, fun answer => ih answer (h.2 answer) _⟩

theorem emitsAfter_bind {p : Prog Op Ans ε α} {f : α → Prog Op Ans ε β} {log : List (Event Op Ans)}
    (hp : EmitsAfter P log p) (hf : ∀ a log, EmitsAfter P log (f a)) :
      EmitsAfter P log (p >>= f) := by
  induction p generalizing log with
  | ret a => exact hf a log
  | throw e => trivial
  | call op next ih => exact ⟨hp.1, fun answer => ih answer (hp.2 answer)⟩

theorem emitsAfter_attempt {p : Prog Op Ans ε α} {log : List (Event Op Ans)}
    (hp : EmitsAfter P log p) : EmitsAfter P log p.attempt := by
  induction p generalizing log with
  | ret a => trivial
  | throw e => trivial
  | call op next ih => exact ⟨hp.1, fun answer => ih answer (hp.2 answer)⟩

theorem run_emitsAfter {p : Prog Op Ans ε α} {log before after : List (Event Op Ans)}
    {event : Event Op Ans} {outcome : Outcome ε α} (h : Run p (before ++ event :: after) outcome)
    (hp : EmitsAfter P log p) : P (log ++ before) event.op := by
  induction before generalizing p log with
  | nil =>
    cases h with
    | call op next answer trace _ rest =>
      rw [List.append_nil]
      exact hp.1
  | cons first before ih =>
    cases h with
    | call op next answer trace _ rest =>
      have hlater := ih rest (hp.2 answer)
      rwa [List.append_assoc, List.singleton_append] at hlater

/-! ### With what comes out -/

/-- After the events of the log, every operation of the program has the property, and what is
returned or thrown meets its condition. -/
def Heeds (P : List (Event Op Ans) → Op → Prop) (exc : ε → List (Event Op Ans) → Prop) :
    List (Event Op Ans) → Prog Op Ans ε α → (α → List (Event Op Ans) → Prop) → Prop
  | log, .ret a, post => post a log
  | log, .throw e, _ => exc e log
  | log, .call op next, post => P log op ∧
    ∀ answer, Heeds P exc (log ++ [⟨op, answer⟩]) (next answer) post

section Heeds

variable {exc : ε → List (Event Op Ans) → Prop} {log : List (Event Op Ans)} {p : Prog Op Ans ε α}

theorem heeds_bind {f : α → Prog Op Ans ε β} {post : β → List (Event Op Ans) → Prop}
    (h : Heeds P exc log p fun a log => Heeds P exc log (f a) post) :
      Heeds P exc log (p >>= f) post := by
  induction p generalizing log with
  | ret a => exact h
  | throw e => exact h
  | call op next ih => exact ⟨h.1, fun answer => ih answer (h.2 answer)⟩

theorem heeds_attempt {post : Except ε α → List (Event Op Ans) → Prop}
    (h : Heeds P (fun e log => post (.error e) log) log p fun a log => post (.ok a) log) :
    Heeds P exc log p.attempt post := by
  induction p generalizing log with
  | ret a => exact h
  | throw e => exact h
  | call op next ih => exact ⟨h.1, fun answer => ih answer (h.2 answer)⟩

theorem heeds_raise {r : Except ε α} {post : α → List (Event Op Ans) → Prop}
    (hok : ∀ a, r = .ok a → post a log) (herror : ∀ e, r = .error e → exc e log) :
      Heeds P exc log (.raise r : Prog Op Ans ε α) post := by
  cases r with
  | ok a => exact hok a rfl
  | error e => exact herror e rfl

theorem Heeds.mono {exc' : ε → List (Event Op Ans) → Prop}
    {post post' : α → List (Event Op Ans) → Prop}
    (h : Heeds P exc log p post) (hpost : ∀ a log, post a log → post' a log)
    (hexc : ∀ e log, exc e log → exc' e log) : Heeds P exc' log p post' := by
  induction p generalizing log with
  | ret a => exact hpost a log h
  | throw e => exact hexc e log h
  | call op next ih => exact ⟨h.1, fun answer => ih answer (h.2 answer)⟩

theorem Heeds.emitsAfter {post : α → List (Event Op Ans) → Prop} (h : Heeds P exc log p post) :
    EmitsAfter P log p := by
  induction p generalizing log with
  | ret a => trivial
  | throw e => trivial
  | call op next ih => exact ⟨h.1, fun answer => ih answer (h.2 answer)⟩

theorem EmitsAfter.heeds (h : EmitsAfter P log p) :
    Heeds P (fun _ _ => True) log p fun _ _ => True := by
  induction p generalizing log with
  | ret a => trivial
  | throw e => trivial
  | call op next ih => exact ⟨h.1, fun answer => ih answer (h.2 answer)⟩

end Heeds

/-- What holds however a run ends. -/
theorem Ensures.holds {σ : Type} {step : σ → Event Op Ans → σ → Prop} {inv : σ → Prop}
    {p : Prog Op Ans ε α} {s t : σ} {trace : List (Event Op Ans)} {outcome : Outcome ε α}
    (h : Ensures step inv (fun _ => inv) p s fun _ => inv)
    (hrun : Run p trace outcome) (hsteps : Steps step s trace t) : inv t := by
  have hmeets := h trace outcome t hrun hsteps
  cases outcome with
  | returned a => exact hmeets
  | threw e => exact hmeets
  | interrupted => exact hmeets

/-- A program that throws nothing returns, once it comes to its end. -/
theorem Ensures.ended {σ : Type} {step : σ → Event Op Ans → σ → Prop} {crash : σ → Prop}
    {post : α → σ → Prop}
    {p : Prog Op Ans ε α} {s t : σ} {trace : List (Event Op Ans)} {outcome : Outcome ε α}
    (h : Ensures step crash (fun _ _ => False) p s post) (hrun : Run p trace outcome)
    (hended : outcome.ended = true) (hsteps : Steps step s trace t) :
    ∃ a, outcome = .returned a ∧ post a t := by
  have hmeets := h trace outcome t hrun hsteps
  cases outcome with
  | returned a => exact ⟨a, rfl, hmeets⟩
  | threw e => exact hmeets.elim
  | interrupted => cases hended

/-- Nothing is struck off the list of the events. -/
theorem ensures_noted {σ : Type} {step : σ → Event Op Ans → σ → Prop} {s : σ}
    {log : List (Event Op Ans)} {event : Event Op Ans} (p : Prog Op Ans ε α) (h : event ∈ log) :
    Ensures (Noted step) (fun w => event ∈ w.2) (fun _ w => event ∈ w.2) p (s, log)
      fun _ w => event ∈ w.2 := by
  refine ensures_emits (fun w : σ × List (Event Op Ans) => event ∈ w.2) (Prog.emits_true p) ?_ h
  intro op answer w w' _ hw hstep
  rw [hstep.2]
  exact List.mem_append_left _ hw

end Effects

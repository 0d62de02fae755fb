import Newsdeck.Library.Effects

/-!
# What a program relies on, and what it guarantees

A program may keep to a rule only as long as the answers it is given do.

* `Upholds` — as long as the answers are the ones relied on, every operation is one that is
  guaranteed, and every value returned meets the postcondition;
* `upholds_bind`, `upholds_raise`, `Prog.Emits.upholds` — a rule for each form;
* `Upholds.steps` — in a world where guaranteed operations are answered as relied on, every run
  performs guaranteed operations only.
-/

namespace Effects

variable {Op : Type} {Ans : Op → Type} {ε α β σ : Type}

/-- As long as the answers are relied on, the operations are guaranteed. -/
def Upholds (rely : Event Op Ans → Prop) (guarantee : Op → Prop) :
    Prog Op Ans ε α → (α → Prop) → Prop
  | .ret a, post => post a
  | .throw _, _ => True
  | .call op next, post =>
      guarantee op ∧ ∀ answer, rely ⟨op, answer⟩ → Upholds rely guarantee (next answer) post

section Rules

variable {rely : Event Op Ans → Prop} {guarantee : Op → Prop} {p : Prog Op Ans ε α}
  {post : α → Prop}

theorem upholds_bind {f : α → Prog Op Ans ε β} {post : β → Prop}
    (h : Upholds rely guarantee p fun a => Upholds rely guarantee (f a) post) :
    Upholds rely guarantee (p >>= f) post := by
  induction p with
  | ret a => exact h
  | throw e => trivial
  | call op next ih => exact ⟨h.1, fun answer hanswer => ih answer (h.2 answer hanswer)⟩

theorem Upholds.mono {post' : α → Prop} (h : Upholds rely guarantee p post)
    (hpost : ∀ a, post a → post' a) : Upholds rely guarantee p post' := by
  induction p with
  | ret a => exact hpost a h
  | throw e => trivial
  | call op next ih => exact ⟨h.1, fun answer hanswer => ih answer (h.2 answer hanswer)⟩

/-- One part after the other. -/
theorem Upholds.seq {f : α → Prog Op Ans ε β} {post' : β → Prop} (h : Upholds rely guarantee p post)
    (hf : ∀ a, post a → Upholds rely guarantee (f a) post') :
    Upholds rely guarantee (p >>= f) post' :=
  upholds_bind (h.mono hf)

theorem upholds_raise {r : Except ε α} (h : ∀ a, r = .ok a → post a) :
    Upholds rely guarantee (.raise r : Prog Op Ans ε α) post := by
  cases r with
  | ok a => exact h a rfl
  | error e => trivial

/-- What the program returns may be added to the postcondition. -/
theorem Upholds.returns {Q : α → Prop} (h : Upholds rely guarantee p post) (hp : p.Returns Q) :
    Upholds rely guarantee p fun a => post a ∧ Q a := by
  induction p with
  | ret a => exact ⟨h, hp⟩
  | throw e => trivial
  | call op next ih => exact ⟨h.1, fun answer hanswer => ih answer (h.2 answer hanswer) (hp answer)⟩

/-- A part that performs guaranteed operations whatever it is answered. -/
theorem Prog.Emits.upholds {P : Op → Prop} (h : p.Emits P) (hP : ∀ op, P op → guarantee op) :
    Upholds rely guarantee p fun _ => True := by
  induction p with
  | ret a => trivial
  | throw e => trivial
  | call op next ih => exact ⟨hP op h.1, fun answer _ => ih answer (h.2 answer)⟩

end Rules

section Worlds

variable {rely : Event Op Ans → Prop} {guarantee : Op → Prop} {step : σ → Event Op Ans → σ → Prop}
  {inv : σ → Prop}

/-- Where the invariant holds, guaranteed operations are answered as relied on, and keep it. -/
def Supports (step : σ → Event Op Ans → σ → Prop) (inv : σ → Prop) (rely : Event Op Ans → Prop)
    (guarantee : Op → Prop) : Prop :=
  ∀ s op answer s', inv s → guarantee op → step s ⟨op, answer⟩ s' → rely ⟨op, answer⟩ ∧ inv s'

/-- **Runs.**  In such a world, a run of a program performs guaranteed operations only. -/
theorem Upholds.steps {p : Prog Op Ans ε α} {post : α → Prop} {trace : List (Event Op Ans)}
    {outcome : Outcome ε α} (hworld : Supports step inv rely guarantee)
    (h : Upholds rely guarantee p post) (hrun : Run p trace outcome) :
    ∀ s t, inv s → Steps step s trace t → (∀ event ∈ trace, guarantee event.op) ∧ inv t := by
  induction hrun with
  | ret a =>
    intro s t hs hsteps
    cases hsteps
    exact ⟨by simp, hs⟩
  | throw e =>
    intro s t hs hsteps
    cases hsteps
    exact ⟨by simp, hs⟩
  | interrupt op next =>
    intro s t hs hsteps
    cases hsteps
    exact ⟨by simp, hs⟩
  | call op next answer trace outcome _ ih =>
    intro s t hs hsteps
    cases hsteps with
    | cons first rest =>
      obtain ⟨hanswer, hm⟩ := hworld s op answer _ hs h.1 first
      obtain ⟨htrace, ht⟩ := ih (h.2 answer hanswer) _ t hm rest
      refine ⟨fun event hevent => ?_, ht⟩
      rcases List.mem_cons.mp hevent with rfl | hevent
      · exact h.1
      · exact htrace event hevent

end Worlds

end Effects

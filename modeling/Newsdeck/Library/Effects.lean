import Mathlib.Data.List.Basic

/-!
# Programs with effects, and what holds of their runs

A program performs operations one after the other; each is answered by the world, and the program
goes on with the answer, returns, or throws.  A run is the list of the events that took place, and it
may be interrupted before any operation.

* `Run` — the runs of a program;
* `Ensures` — what holds when a run comes to an end, in a world that moves with every event: after a
  return, after a throw, and wherever the program is interrupted;
* `ensures_ret`, `ensures_throw`, `ensures_call`, `ensures_bind`, `ensures_attempt`, `ensures_raise` —
  one rule for each form of a program;
* `Ensures.returns` — a property of the returned values may be used with any postcondition;
* `Ensures.within` — what holds of a part of the world holds in the whole;
* `ensures_emits` — what every operation of a program keeps is kept by the program;
* `run_emits` — every event of a run is one of the operations the program emits;
* `Appends`, `Folds`, `Tallied` — worlds that keep a log of the events that can be seen, or a tally of
  all.
-/

namespace Effects

/-- A program over the operations `Op`, answered in `Ans`, that throws values of `ε`. -/
inductive Prog (Op : Type) (Ans : Op → Type) (ε α : Type) : Type where
  | ret : α → Prog Op Ans ε α
  | throw : ε → Prog Op Ans ε α
  | call : (op : Op) → (Ans op → Prog Op Ans ε α) → Prog Op Ans ε α

variable {Op : Type} {Ans : Op → Type} {ε α β : Type}

namespace Prog

def bind : Prog Op Ans ε α → (α → Prog Op Ans ε β) → Prog Op Ans ε β
  | ret a, f => f a
  | throw e, _ => throw e
  | call op next, f => call op fun answer => (next answer).bind f

instance : Monad (Prog Op Ans ε) where
  pure := ret
  bind := bind

/-- Run the program and keep what it throws. -/
def attempt : Prog Op Ans ε α → Prog Op Ans ε (Except ε α)
  | ret a => ret (.ok a)
  | throw e => ret (.error e)
  | call op next => call op fun answer => (next answer).attempt

/-- Throw the error, or return the value. -/
def raise : Except ε α → Prog Op Ans ε α
  | .ok a => ret a
  | .error e => throw e

/-- Every operation the program may perform has the property. -/
def Emits (P : Op → Prop) : Prog Op Ans ε α → Prop
  | ret _ => True
  | throw _ => True
  | call op next => P op ∧ ∀ answer, (next answer).Emits P

/-- Every value the program may return has the property. -/
def Returns (Q : α → Prop) : Prog Op Ans ε α → Prop
  | ret a => Q a
  | throw _ => True
  | call _ next => ∀ answer, (next answer).Returns Q

@[simp] theorem pure_eq (a : α) : (pure a : Prog Op Ans ε α) = ret a := rfl

@[simp] theorem ret_bind (a : α) (f : α → Prog Op Ans ε β) : ret a >>= f = f a := rfl

@[simp] theorem throw_bind (e : ε) (f : α → Prog Op Ans ε β) :
    (throw e : Prog Op Ans ε α) >>= f = throw e := rfl

@[simp] theorem call_bind (op : Op) (next : Ans op → Prog Op Ans ε α) (f : α → Prog Op Ans ε β) :
    call op next >>= f = call op fun answer => next answer >>= f := rfl

variable {P : Op → Prop}

@[simp] theorem emits_ret (a : α) : (ret a : Prog Op Ans ε α).Emits P := trivial

@[simp] theorem emits_throw (e : ε) : (throw e : Prog Op Ans ε α).Emits P := trivial

@[simp] theorem emits_raise (r : Except ε α) : (raise r : Prog Op Ans ε α).Emits P := by
  cases r <;> trivial

theorem emits_bind {p : Prog Op Ans ε α} {f : α → Prog Op Ans ε β} (hp : p.Emits P)
    (hf : ∀ a, (f a).Emits P) : (p >>= f).Emits P := by
  induction p with
  | ret a => exact hf a
  | throw e => trivial
  | call op next ih => exact ⟨hp.1, fun answer => ih answer (hp.2 answer)⟩

theorem emits_attempt {p : Prog Op Ans ε α} (hp : p.Emits P) : p.attempt.Emits P := by
  induction p with
  | ret a => trivial
  | throw e => trivial
  | call op next ih => exact ⟨hp.1, fun answer => ih answer (hp.2 answer)⟩

theorem Emits.mono {Q : Op → Prop} {p : Prog Op Ans ε α} (hp : p.Emits P) (h : ∀ op, P op → Q op) :
    p.Emits Q := by
  induction p with
  | ret a => trivial
  | throw e => trivial
  | call op next ih => exact ⟨h op hp.1, fun answer => ih answer (hp.2 answer)⟩

theorem emits_true (p : Prog Op Ans ε α) : p.Emits fun _ => True := by
  induction p with
  | ret a => trivial
  | throw e => trivial
  | call op next ih => exact ⟨trivial, ih⟩

theorem returns_true (p : Prog Op Ans ε α) : p.Returns fun _ => True := by
  induction p with
  | ret a => trivial
  | throw e => trivial
  | call op next ih => exact ih

theorem returns_bind {Q : β → Prop} {p : Prog Op Ans ε α} {f : α → Prog Op Ans ε β}
    (h : p.Returns fun a => (f a).Returns Q) : (p >>= f).Returns Q := by
  induction p with
  | ret a => exact h
  | throw e => trivial
  | call op next ih => exact fun answer => ih answer (h answer)

theorem Returns.mono {Q R : α → Prop} {p : Prog Op Ans ε α} (hp : p.Returns Q)
    (h : ∀ a, Q a → R a) : p.Returns R := by
  induction p with
  | ret a => exact h a hp
  | throw e => trivial
  | call op next ih => exact fun answer => ih answer (hp answer)

theorem returns_raise {Q : α → Prop} {r : Except ε α} (h : ∀ a, r = .ok a → Q a) :
    (raise r : Prog Op Ans ε α).Returns Q := by
  cases r with
  | ok a => exact h a rfl
  | error e => trivial

end Prog

/-! ### Runs -/

/-- An operation and its answer. -/
structure Event (Op : Type) (Ans : Op → Type) where
  op : Op
  answer : Ans op

/-- How a run ends. -/
inductive Outcome (ε α : Type) where
  | returned : α → Outcome ε α
  | threw : ε → Outcome ε α
  | interrupted : Outcome ε α

/-- The program returned or threw. -/
def Outcome.ended : Outcome ε α → Bool
  | .interrupted => false
  | _ => true

open Prog

/-- The runs of a program. -/
inductive Run : Prog Op Ans ε α → List (Event Op Ans) → Outcome ε α → Prop
  | ret (a : α) : Run (ret a) [] (.returned a)
  | throw (e : ε) : Run (throw e) [] (.threw e)
  | interrupt (op : Op) (next : Ans op → Prog Op Ans ε α) : Run (call op next) [] .interrupted
  | call (op : Op) (next : Ans op → Prog Op Ans ε α) (answer : Ans op)
      (trace : List (Event Op Ans)) (outcome : Outcome ε α) (rest : Run (next answer) trace outcome) :
      Run (call op next) (⟨op, answer⟩ :: trace) outcome

/-- The events move the world from one state to another. -/
inductive Steps {σ : Type} (step : σ → Event Op Ans → σ → Prop) : σ → List (Event Op Ans) → σ → Prop
  | nil (s : σ) : Steps step s [] s
  | cons {s s' t : σ} {event : Event Op Ans} {trace : List (Event Op Ans)} (first : step s event s')
      (rest : Steps step s' trace t) : Steps step s (event :: trace) t

theorem Steps.append {σ : Type} {step : σ → Event Op Ans → σ → Prop} {s t u : σ}
    {before after : List (Event Op Ans)} (h : Steps step s before t) (h' : Steps step t after u) :
    Steps step s (before ++ after) u := by
  induction h with
  | nil s => exact h'
  | cons first _ ih => exact .cons first (ih h')

theorem Steps.split {σ : Type} {step : σ → Event Op Ans → σ → Prop} {s u : σ}
    {before after : List (Event Op Ans)} (h : Steps step s (before ++ after) u) :
    ∃ t, Steps step s before t ∧ Steps step t after u := by
  induction before generalizing s with
  | nil => exact ⟨s, .nil s, h⟩
  | cons event before ih =>
    cases h with
    | cons first rest =>
      obtain ⟨t, hbefore, hafter⟩ := ih rest
      exact ⟨t, .cons first hbefore, hafter⟩

theorem Steps.map {σ τ : Type} {step : σ → Event Op Ans → σ → Prop}
    {whole : τ → Event Op Ans → τ → Prop} (part : τ → σ)
    (hpart : ∀ t event t', whole t event t' → step (part t) event (part t')) {t t' : τ}
    {trace : List (Event Op Ans)} (h : Steps whole t trace t') :
    Steps step (part t) trace (part t') := by
  induction h with
  | nil t => exact .nil _
  | cons first _ ih => exact .cons (hpart _ _ _ first) ih

/-- How a run of a sequence divides. -/
theorem run_bind {p : Prog Op Ans ε α} {f : α → Prog Op Ans ε β} {trace : List (Event Op Ans)}
    {outcome : Outcome ε β} (h : Run (p >>= f) trace outcome) :
    (∃ a before after, trace = before ++ after ∧ Run p before (.returned a) ∧
      Run (f a) after outcome) ∨
    (∃ e, outcome = .threw e ∧ Run p trace (.threw e)) ∨
    (outcome = .interrupted ∧ Run p trace .interrupted) := by
  induction p generalizing trace with
  | ret a => exact .inl ⟨a, [], trace, rfl, .ret a, h⟩
  | throw e =>
    cases h
    exact .inr (.inl ⟨e, rfl, .throw e⟩)
  | call op next ih =>
    cases h with
    | interrupt => exact .inr (.inr ⟨rfl, .interrupt op next⟩)
    | call _ _ answer trace _ rest =>
      rcases ih answer rest with ⟨a, before, after, rfl, hp, hf⟩ | ⟨e, rfl, hp⟩ | ⟨rfl, hp⟩
      · exact .inl ⟨a, _, after, rfl, .call op next answer before _ hp, hf⟩
      · exact .inr (.inl ⟨e, rfl, .call op next answer trace _ hp⟩)
      · exact .inr (.inr ⟨rfl, .call op next answer trace _ hp⟩)

theorem run_attempt {p : Prog Op Ans ε α} {trace : List (Event Op Ans)}
    {outcome : Outcome ε (Except ε α)} (h : Run p.attempt trace outcome) :
    (∃ a, outcome = .returned (.ok a) ∧ Run p trace (.returned a)) ∨
    (∃ e, outcome = .returned (.error e) ∧ Run p trace (.threw e)) ∨
    (outcome = .interrupted ∧ Run p trace .interrupted) := by
  induction p generalizing trace with
  | ret a =>
    cases h
    exact .inl ⟨a, rfl, .ret a⟩
  | throw e =>
    cases h
    exact .inr (.inl ⟨e, rfl, .throw e⟩)
  | call op next ih =>
    cases h with
    | interrupt => exact .inr (.inr ⟨rfl, .interrupt op next⟩)
    | call _ _ answer trace _ rest =>
      rcases ih answer rest with ⟨a, rfl, hp⟩ | ⟨e, rfl, hp⟩ | ⟨rfl, hp⟩
      · exact .inl ⟨a, rfl, .call op next answer trace _ hp⟩
      · exact .inr (.inl ⟨e, rfl, .call op next answer trace _ hp⟩)
      · exact .inr (.inr ⟨rfl, .call op next answer trace _ hp⟩)

/-- Somewhere along the events, the program returned the value. -/
def Returned (p : Prog Op Ans ε α) (trace : List (Event Op Ans)) (a : α) : Prop :=
  ∃ before after, trace = before ++ after ∧ Run p before (.returned a)

/-- The events decide what a program returns. -/
theorem returned_unique {p : Prog Op Ans ε α} {trace : List (Event Op Ans)} {outcome : Outcome ε α}
    {a : α} (h : Returned p trace a) (hrun : Run p trace outcome) : outcome = .returned a := by
  obtain ⟨before, after, rfl, hreturned⟩ := h
  induction p generalizing before with
  | ret b =>
    cases hreturned
    cases hrun
    rfl
  | throw e => cases hreturned
  | call op next ih =>
    cases hreturned with
    | call _ _ answer before _ rest =>
      cases hrun with
      | call _ _ _ _ _ hrest => exact ih answer before rest hrest

theorem returned_eq {p : Prog Op Ans ε α} {before after : List (Event Op Ans)} {a b : α}
    (h : Returned p (before ++ after) a) (hp : Run p before (.returned b)) : a = b := by
  obtain ⟨first, rest, happ, hreturned⟩ := h
  induction p generalizing before first with
  | ret c =>
    cases hreturned
    cases hp
    rfl
  | throw e => cases hreturned
  | call op next ih =>
    cases hreturned with
    | call _ _ answer first _ hfirst =>
      cases hp with
      | call _ _ answer' before _ hbefore =>
        simp only [List.cons_append, List.cons.injEq, Event.mk.injEq, heq_eq_eq, true_and] at happ
        obtain ⟨rfl, happ⟩ := happ
        exact ih _ hbefore _ happ hfirst

/-- A run that came to its end does not go on. -/
theorem run_ended {p : Prog Op Ans ε α} {before after : List (Event Op Ans)}
    {outcome outcome' : Outcome ε α} (h : Run p before outcome)
    (h' : Run p (before ++ after) outcome') (hended : outcome.ended = true) :
    after = [] ∧ outcome' = outcome := by
  induction h with
  | ret a =>
    cases h'
    exact ⟨rfl, rfl⟩
  | throw e =>
    cases h'
    exact ⟨rfl, rfl⟩
  | interrupt op next => simp [Outcome.ended] at hended
  | call op next answer trace outcome rest ih =>
    cases h' with
    | call _ _ _ _ _ rest' => exact ih rest' hended

/-- Two runs of a program along the same events, that came to their ends. -/
theorem run_same {p : Prog Op Ans ε α} {a b c d : List (Event Op Ans)} {outcome outcome' : Outcome ε α}
    (h : Run p a outcome) (h' : Run p c outcome') (hended : outcome.ended = true)
    (hended' : outcome'.ended = true) (hsame : a ++ b = c ++ d) : a = c ∧ b = d := by
  rcases List.append_eq_append_iff.mp hsame with ⟨more, rfl, rfl⟩ | ⟨more, rfl, rfl⟩
  · obtain ⟨rfl, -⟩ := run_ended h h' hended
    simp
  · obtain ⟨rfl, -⟩ := run_ended h' h hended'
    simp

/-! ### What holds at the end of a run -/

section Ensures

variable {σ : Type}

/-- The outcome meets the postcondition that belongs to it. -/
def Meets (crash : σ → Prop) (exc : ε → σ → Prop) (post : α → σ → Prop) :
    Outcome ε α → σ → Prop
  | .returned a, s => post a s
  | .threw e, s => exc e s
  | .interrupted, s => crash s

/-- **Every run ends well.**  In the world that moves by `step`, a run of the program from `s` ends in
a state that meets `post` when it returned, `exc` when it threw, and `crash` when it was
interrupted. -/
def Ensures (step : σ → Event Op Ans → σ → Prop) (crash : σ → Prop) (exc : ε → σ → Prop)
    (p : Prog Op Ans ε α) (s : σ) (post : α → σ → Prop) : Prop :=
  ∀ trace outcome s', Run p trace outcome → Steps step s trace s' → Meets crash exc post outcome s'

variable {step : σ → Event Op Ans → σ → Prop} {crash : σ → Prop} {exc : ε → σ → Prop} {s : σ}

theorem ensures_ret {a : α} {post : α → σ → Prop} (h : post a s) :
    Ensures step crash exc (ret a) s post := by
  intro trace outcome s' hrun hsteps
  cases hrun
  cases hsteps
  exact h

theorem ensures_throw {e : ε} {post : α → σ → Prop} (h : exc e s) :
    Ensures step crash exc (throw e) s post := by
  intro trace outcome s' hrun hsteps
  cases hrun
  cases hsteps
  exact h

theorem ensures_call {op : Op} {next : Ans op → Prog Op Ans ε α} {post : α → σ → Prop}
    (hcrash : crash s)
    (h : ∀ answer s', step s ⟨op, answer⟩ s' → Ensures step crash exc (next answer) s' post) :
    Ensures step crash exc (call op next) s post := by
  intro trace outcome s' hrun hsteps
  cases hrun with
  | interrupt =>
    cases hsteps
    exact hcrash
  | call _ _ answer trace _ rest =>
    cases hsteps with
    | cons first steps => exact h answer _ first _ _ _ rest steps

theorem ensures_bind {p : Prog Op Ans ε α} {f : α → Prog Op Ans ε β} {post : β → σ → Prop}
    (h : Ensures step crash exc p s fun a s' => Ensures step crash exc (f a) s' post) :
    Ensures step crash exc (p >>= f) s post := by
  induction p generalizing s with
  | ret a => exact h [] (.returned a) s (.ret a) (.nil s)
  | throw e =>
    refine ensures_throw ?_
    exact h [] (.threw e) s (.throw e) (.nil s)
  | call op next ih =>
    refine ensures_call ?_ fun answer s' hstep => ih answer fun trace outcome t hrun hsteps => ?_
    · exact h [] .interrupted s (.interrupt op next) (.nil s)
    · exact h _ outcome t (.call op next answer trace outcome hrun) (.cons hstep hsteps)

theorem ensures_attempt {p : Prog Op Ans ε α} {post : Except ε α → σ → Prop}
    (h : Ensures step crash (fun e s' => post (.error e) s') p s fun a s' => post (.ok a) s') :
    Ensures step crash exc p.attempt s post := by
  intro trace outcome s' hrun hsteps
  rcases run_attempt hrun with ⟨a, rfl, hp⟩ | ⟨e, rfl, hp⟩ | ⟨rfl, hp⟩
  · exact h trace _ s' hp hsteps
  · exact h trace _ s' hp hsteps
  · exact h trace _ s' hp hsteps

theorem ensures_raise {r : Except ε α} {post : α → σ → Prop} (hok : ∀ a, r = .ok a → post a s)
    (herror : ∀ e, r = .error e → exc e s) : Ensures step crash exc (raise r) s post := by
  cases r with
  | ok a => exact ensures_ret (hok a rfl)
  | error e => exact ensures_throw (herror e rfl)

theorem Ensures.mono {exc' : ε → σ → Prop} {crash' : σ → Prop} {p : Prog Op Ans ε α}
    {post post' : α → σ → Prop} (h : Ensures step crash exc p s post)
    (hpost : ∀ a s', post a s' → post' a s') (hexc : ∀ e s', exc e s' → exc' e s')
    (hcrash : ∀ s', crash s' → crash' s') : Ensures step crash' exc' p s post' := by
  intro trace outcome s' hrun hsteps
  have hmeets := h trace outcome s' hrun hsteps
  cases outcome with
  | returned a => exact hpost a s' hmeets
  | threw e => exact hexc e s' hmeets
  | interrupted => exact hcrash s' hmeets

theorem Ensures.weaken {p : Prog Op Ans ε α} {post post' : α → σ → Prop}
    (h : Ensures step crash exc p s post) (hpost : ∀ a s', post a s' → post' a s') :
    Ensures step crash exc p s post' :=
  h.mono hpost (fun _ _ he => he) fun _ hc => hc

theorem Ensures.and {crash' : σ → Prop} {exc' : ε → σ → Prop} {p : Prog Op Ans ε α}
    {post post' : α → σ → Prop} (h : Ensures step crash exc p s post)
    (h' : Ensures step crash' exc' p s post') :
    Ensures step (fun t => crash t ∧ crash' t) (fun e t => exc e t ∧ exc' e t) p s
      fun a t => post a t ∧ post' a t := by
  intro trace outcome t hrun hsteps
  have hfirst := h trace outcome t hrun hsteps
  have hsecond := h' trace outcome t hrun hsteps
  cases outcome with
  | returned a => exact ⟨hfirst, hsecond⟩
  | threw e => exact ⟨hfirst, hsecond⟩
  | interrupted => exact ⟨hfirst, hsecond⟩

/-- **Projections.**  What holds of a part of the world holds in the whole. -/
theorem Ensures.within {τ : Type} {whole : τ → Event Op Ans → τ → Prop} (part : τ → σ)
    (hpart : ∀ t event t', whole t event t' → step (part t) event (part t')) {t : τ}
    {p : Prog Op Ans ε α} {post : α → σ → Prop} (h : Ensures step crash exc p (part t) post) :
    Ensures whole (fun t' => crash (part t')) (fun e t' => exc e (part t')) p t
      fun a t' => post a (part t') := by
  intro trace outcome t' hrun hsteps
  have hmeets := h trace outcome (part t') hrun (hsteps.map part hpart)
  cases outcome with
  | returned a => exact hmeets
  | threw e => exact hmeets
  | interrupted => exact hmeets

theorem Prog.Returns.returned {Q : α → Prop} {p : Prog Op Ans ε α} (h : p.Returns Q)
    {trace : List (Event Op Ans)} {a : α} (hrun : Run p trace (.returned a)) : Q a := by
  induction p generalizing trace with
  | ret b =>
    cases hrun
    exact h
  | throw e => cases hrun
  | call op next ih =>
    cases hrun with
    | call _ _ answer trace _ rest => exact ih answer (h answer) rest

/-- What the program returns may be added to the postcondition. -/
theorem Ensures.returns {Q : α → Prop} {p : Prog Op Ans ε α} {post : α → σ → Prop}
    (h : Ensures step crash exc p s post) (hp : p.Returns Q) :
    Ensures step crash exc p s fun a s' => post a s' ∧ Q a := by
  intro trace outcome s' hrun hsteps
  have hmeets := h trace outcome s' hrun hsteps
  cases outcome with
  | returned a => exact ⟨hmeets, hp.returned hrun⟩
  | threw e => exact hmeets
  | interrupted => exact hmeets

/-- **Frames.**  An invariant that every operation of the program keeps holds however the program
ends. -/
theorem ensures_emits {P : Op → Prop} {p : Prog Op Ans ε α} (inv : σ → Prop) (hp : p.Emits P)
    (hkeep : ∀ op answer s s', P op → inv s → step s ⟨op, answer⟩ s' → inv s') (hs : inv s) :
    Ensures step inv (fun _ s' => inv s') p s fun _ s' => inv s' := by
  induction p generalizing s with
  | ret a => exact ensures_ret hs
  | throw e => exact ensures_throw hs
  | call op next ih =>
    refine ensures_call hs fun answer s' hstep => ?_
    exact ih answer (hp.2 answer) (hkeep op answer s s' hp.1 hs hstep)

end Ensures

/-- The events of a run are operations the program may perform. -/
theorem run_emits {P : Op → Prop} {p : Prog Op Ans ε α} {trace : List (Event Op Ans)}
    {outcome : Outcome ε α} (h : Run p trace outcome) (hp : p.Emits P) :
    ∀ event ∈ trace, P event.op := by
  induction h with
  | ret a => simp
  | throw e => simp
  | interrupt op next => simp
  | call op next answer trace outcome rest ih =>
    intro event hevent
    rcases List.mem_cons.mp hevent with rfl | hevent
    · exact hp.1
    · exact ih (hp.2 answer) event hevent

/-! ### Logs -/

section Logs

variable {υ : Type} (view : Event Op Ans → Option υ)

/-- The world that writes down what it sees of each event. -/
def Appends (log : List υ) (event : Event Op Ans) (log' : List υ) : Prop :=
  log' = log ++ (view event).toList

theorem steps_appends (log : List υ) (trace : List (Event Op Ans)) :
    Steps (Appends view) log trace (log ++ trace.filterMap view) := by
  induction trace generalizing log with
  | nil =>
    rw [List.filterMap_nil, List.append_nil]
    exact .nil log
  | cons event trace ih =>
    have hrest := ih (log ++ (view event).toList)
    rw [List.append_assoc] at hrest
    have hcons : (event :: trace).filterMap view =
        (view event).toList ++ trace.filterMap view := by
      cases h : view event <;> simp [h]
    rw [hcons]
    exact .cons rfl hrest

end Logs

section Tallies

variable {σ κ : Type}

/-- A world that the events decide. -/
def Folds (tally : κ → Event Op Ans → κ) (k : κ) (event : Event Op Ans) (k' : κ) : Prop :=
  k' = tally k event

theorem steps_folds (tally : κ → Event Op Ans → κ) (trace : List (Event Op Ans)) :
    ∀ k, Steps (Folds tally) k trace (trace.foldl tally k) := by
  induction trace with
  | nil => exact fun k => .nil k
  | cons event trace ih => exact fun k => .cons rfl (ih (tally k event))

/-- A world that moves, and something that is told of every event. -/
def Tallied (step : σ → Event Op Ans → σ → Prop) (tally : κ → Event Op Ans → κ) (s : σ × κ)
    (event : Event Op Ans) (s' : σ × κ) : Prop :=
  step s.1 event s'.1 ∧ s'.2 = tally s.2 event

theorem steps_tallied {step : σ → Event Op Ans → σ → Prop} (tally : κ → Event Op Ans → κ) {s s' : σ}
    {trace : List (Event Op Ans)} (h : Steps step s trace s') :
    ∀ k, Steps (Tallied step tally) (s, k) trace (s', trace.foldl tally k) := by
  induction h with
  | nil s => exact fun k => .nil _
  | @cons s m t event trace first _ ih => exact fun k => .cons ⟨first, rfl⟩ (ih (tally k event))

/-- A world that moves, and the list of the events that moved it. -/
abbrev Noted (step : σ → Event Op Ans → σ → Prop) :
    σ × List (Event Op Ans) → Event Op Ans → σ × List (Event Op Ans) → Prop :=
  Tallied step fun log event => log ++ [event]

theorem steps_noted {step : σ → Event Op Ans → σ → Prop} {s s' : σ} {trace : List (Event Op Ans)}
    (h : Steps step s trace s') (log : List (Event Op Ans)) :
    Steps (Noted step) (s, log) trace (s', log ++ trace) := by
  have hlog : ∀ log, trace.foldl (fun log event => log ++ [event]) log = log ++ trace := by
    clear h
    induction trace with
    | nil => simp
    | cons event trace ih =>
      intro log
      rw [List.foldl_cons, ih, List.append_assoc, List.singleton_append]
  have hsteps := steps_tallied (fun log event => log ++ [event]) h log
  rwa [hlog] at hsteps

/-- In a world that notes its events, what a part has done is one of its runs. -/
theorem Ensures.noted {step : σ → Event Op Ans → σ → Prop} {crash : σ → Prop} {exc : ε → σ → Prop}
    {p : Prog Op Ans ε α} {s : σ} {post : α → σ → Prop} (h : Ensures step crash exc p s post)
    (log : List (Event Op Ans)) :
    Ensures (Noted step) (fun w => crash w.1)
      (fun e w => exc e w.1 ∧
        ∃ trace, w.2 = log ++ trace ∧ Run p trace (.threw e) ∧ Steps step s trace w.1) p (s, log)
      fun a w => post a w.1 ∧
        ∃ trace, w.2 = log ++ trace ∧ Run p trace (.returned a) ∧ Steps step s trace w.1 := by
  intro trace outcome w hrun hsteps
  have hpart : Steps step s trace w.1 := hsteps.map Prod.fst fun _ _ _ hstep => hstep.1
  have hmeets := h trace outcome w.1 hrun hpart
  have hlog : w.2 = log ++ trace := by
    clear hrun hmeets h hpart
    generalize hw : (s, log) = w' at hsteps
    induction hsteps generalizing s log with
    | nil w' =>
      subst hw
      simp
    | @cons w₁ w₂ w₃ event trace first _ ih =>
      subst hw
      have hrest := ih (log ++ [event]) (Prod.ext rfl first.2.symm)
      rwa [List.append_assoc, List.singleton_append] at hrest
  cases outcome with
  | returned a => exact ⟨hmeets, trace, hlog, hrun, hpart⟩
  | threw e => exact ⟨hmeets, trace, hlog, hrun, hpart⟩
  | interrupted => exact hmeets

end Tallies

end Effects

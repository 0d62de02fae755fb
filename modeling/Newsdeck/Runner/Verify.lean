import Newsdeck.Library.Effects
import Newsdeck.Loop.Tiers
import Newsdeck.Runner.Git
import Newsdeck.Runner.Redact

/-!
# Local verification

`verify` goes through the steps of a risk level, one after the other: what does not apply is passed
over, what cannot run is told unavailable, what runs passes or fails, and a failure is the last.
The command runner, the lookup on the `PATH` and the clock answer as they like.

* `StepRun`, `Course` — the runs of one step, and of all;
* `verifyStep_run`, `runSteps_course` — the code has no others;
* `Course.clean_iff` — nothing failed and nothing was unavailable exactly when all that applies
  passed;
* `Course.accounted` — what could not run is told, or was never reached;
* `Course.quiet` — nothing runs after a failure.
-/

namespace Newsdeck.Runner.Verification

open Ecma Loop Effects Effects.Prog

/-! ### What verification asks of the world -/

/-- What a command is run for. -/
inductive Purpose where
  | probe
  | check
  deriving DecidableEq

/-- What a command that was run leaves behind. -/
structure CommandResult where
  code : ℤ
  stdout : Text
  stderr : Text
  timedOut : Bool

/-- The calls that leave `verify`, each told the step it is made for.  A probe without a first word
calls no command. -/
inductive Call where
  | now
  | which (step : TierStep) (command : Text)
  | exec (step : TierStep) (purpose : Purpose) (command : Option Text) (args : List Text)
      (cwd : Text) (timeoutMs : ℕ)

/-- How a call is answered; the lookup and the command runner may throw. -/
def Call.Answer : Call → Type
  | now => ℕ
  | which _ _ => Except Text (Option Text)
  | exec _ _ _ _ _ _ => Except Text CommandResult

/-- A call with its answer. -/
abbrev CallEvent := Event Call Call.Answer

/-- A part of `verify`. -/
abbrev Verifying (α : Type) := Prog Call Call.Answer Text α

def now : Verifying ℕ := .call .now .ret

def which (step : TierStep) (command : Text) : Verifying (Option Text) :=
  .call (.which step command) .raise

def exec (step : TierStep) (purpose : Purpose) (command : Option Text) (args : List Text)
    (cwd : Text) (timeoutMs : ℕ) : Verifying CommandResult :=
  .call (.exec step purpose command args cwd timeoutMs) .raise

/-! ### The code -/

/-- `VERIFICATION_STEPS`. -/
def verificationSteps : List TierStep :=
  [⟨lit "lint", lit "bun", [lit "run", lit "lint"], none, none, none, 10⟩,
    ⟨lit "typecheck", lit "bun", [lit "run", lit "typecheck"], none, none, none, 10⟩,
    ⟨lit "test", lit "bun", [lit "run", lit "test"], none, none, none, 20⟩,
    ⟨lit "build", lit "bun", [lit "run", lit "build"], none, none, none, 20⟩]

/-- `VerifyOptions`, less the runner and the lookup. -/
structure Options where
  cwd : Text
  risk : Option RiskLevel
  policy : Option LoopPolicy
  changedFiles : Option (List Text)
  only : Option (List Text)

/-- `options.risk ?? 'low'`. -/
def Options.level (options : Options) : RiskLevel := options.risk.getD .low

/-- The steps to go through, on a call stack of `depth` frames. -/
def tierSteps (options : Options) (depth : ℕ) : Option (List TierStep) :=
  match options.policy with
  | none => some verificationSteps
  | some policy => stepsForRisk policy depth options.level

/-- The step is scoped to paths, and the change touches none of them. -/
def outOfScope (changedFiles : Option (List Text)) (step : TierStep) : Bool :=
  match step.whenChanged, changedFiles with
  | some globs, some files => !files.any fun file => matchesAnyGlob globs file
  | _, _ => false

/-- The tool the step needs, when the lookup does not find it. -/
def missingTool (step : TierStep) : Verifying (Option Text) :=
  match step.requires with
  | none => .ret none
  | some command => do
      match ← which step command with
      | none => .ret (some command)
      | some _ => .ret none

/-- What is told of a probe that failed. -/
def probeFailure (cwd : Text) (step : TierStep) : Verifying (Option Text) :=
  match step.requiresProbe with
  | none => .ret none
  | some probe => do
      let result ← exec step .probe probe.head? probe.tail cwd 60000
      if result.code ≠ 0 then
        .ret (some (lit "`" ++ join (lit " ") probe ++
          lit "` failed, so this step could not run: " ++
          takeLast 500 (redact (orElseText (trim result.stderr) (trim result.stdout)))))
      else .ret none

/-- Why the step cannot run, unless it can. -/
def unavailability (cwd : Text) (step : TierStep) : Verifying (Option Text) := do
  match ← missingTool step with
  | some command =>
      .ret (some (lit "`" ++ command ++ lit "` is not on PATH, so this step could not run."))
  | none => probeFailure cwd step

/-- The command went well. -/
def CommandResult.passed (result : CommandResult) : Bool := result.code = 0 && !result.timedOut

/-- Run the command of the step.  The clock is taken not to be set back meanwhile. -/
def runStep (cwd : Text) (step : TierStep) : Verifying (StepResult × Bool) := do
  let startedAt ← now
  let result ← exec step .check (some step.command) step.args cwd (step.timeoutMinutes * 60000)
  let combined := trim (result.stdout ++ lit "\n" ++ result.stderr)
  let endedAt ← now
  .ret (⟨step.name, if result.passed then .passed else .failed, endedAt - startedAt,
    takeLast 6000 (redact combined)⟩, !result.passed)

/-- One round of the loop: what is recorded, and whether the loop ends with it. -/
def verifyStep (options : Options) (step : TierStep) : Verifying (StepResult × Bool) :=
  if outOfScope options.changedFiles step then .ret (⟨step.name, .notApplicable, 0, []⟩, false)
  else do
    match ← unavailability options.cwd step with
    | some reason => .ret (⟨step.name, .unavailable, 0, reason⟩, false)
    | none => runStep options.cwd step

/-- The step is left out by `only`. -/
def leftOut (options : Options) (step : TierStep) : Bool :=
  options.only.any fun names => step.name ∉ names

/-- The loop. -/
def runSteps (options : Options) : List TierStep → Verifying (List StepResult)
  | [] => .ret []
  | step :: rest =>
      if leftOut options step then runSteps options rest
      else do
        let (result, stops) ← verifyStep options step
        if stops then .ret [result]
        else do
          let results ← runSteps options rest
          .ret (result :: results)

/-- What is made of the recorded steps. -/
def outcomeOf (risk : RiskLevel) (steps : List StepResult) : VerificationOutcome :=
  let failed := steps.filter fun step => step.outcome = .failed
  let unavailable := steps.filter fun step => step.outcome = .unavailable
  { ok := failed.length = 0 && unavailable.length = 0
    risk := risk
    steps := steps
    firstFailure := failed.head?
    unavailable := unavailable.map StepResult.name
    failed := failed.map StepResult.name }

/-- `verify`.  A stack too deep for the tiers throws. -/
def verify (options : Options) (depth : ℕ) : Verifying VerificationOutcome :=
  match tierSteps options depth with
  | none => .throw (lit "Maximum call stack size exceeded")
  | some steps => do
      let results ← runSteps options steps
      .ret (outcomeOf options.level results)

/-! ### What is seen of a step -/

/-- The step has no paths it is scoped to, or the change touches one of them. -/
def Applies (changedFiles : Option (List Text)) (step : TierStep) : Prop :=
  ∀ globs, step.whenChanged = some globs → ∀ files, changedFiles = some files →
    ∃ file ∈ files, matchesAnyGlob globs file = true

theorem applies_iff {changedFiles : Option (List Text)} {step : TierStep} :
    Applies changedFiles step ↔ outOfScope changedFiles step = false := by
  unfold Applies outOfScope
  cases step.whenChanged with
  | none => simp
  | some globs => cases changedFiles <;> simp

/-- The command of the step was run, and left this behind. -/
def checked (cwd : Text) (step : TierStep) (result : CommandResult) : CallEvent :=
  ⟨.exec step .check (some step.command) step.args cwd (step.timeoutMinutes * 60000), .ok result⟩

section Seen

variable (cwd : Text) (trace : List CallEvent) (step : TierStep)

/-- The step was executed, and exited 0 without timing out. -/
def Passed : Prop :=
  ∃ result, checked cwd step result ∈ trace ∧ result.code = 0 ∧ result.timedOut = false

/-- The step was executed, and did not pass. -/
def Failed : Prop :=
  ∃ result, checked cwd step result ∈ trace ∧ (result.code ≠ 0 ∨ result.timedOut = true)

/-- The step needs a tool, and whenever that was looked up it was not found. -/
def Missing : Prop :=
  ∃ command, step.requires = some command ∧
    ∀ answer : Except Text (Option Text), ⟨.which step command, answer⟩ ∈ trace → answer = .ok none

/-- The step has a probe, and whenever that was run it did not exit 0. -/
def ProbeFails : Prop :=
  ∃ probe, step.requiresProbe = some probe ∧ ∀ result : CommandResult,
    ⟨.exec step .probe probe.head? probe.tail cwd 60000, .ok result⟩ ∈ trace → result.code ≠ 0

end Seen

/-- The command of some step failed. -/
def Failing : CallEvent → Prop
  | ⟨.exec _ .check _ _ _ _, .ok result⟩ => result.code ≠ 0 ∨ result.timedOut = true
  | _ => False

/-- The step a call is made for. -/
def Call.step : Call → Option TierStep
  | now => none
  | which step _ => some step
  | exec step _ _ _ _ _ => some step

/-- A lookup or a probe. -/
def Call.Inquires : Call → Prop
  | which _ _ => True
  | exec _ .probe _ _ _ _ => True
  | _ => False

/-! ### The runs of one step -/

/-- Lookups and probes of the step. -/
def Inquiries (step : TierStep) (trace : List CallEvent) : Prop :=
  ∀ event ∈ trace, event.op.Inquires ∧ event.op.step = some step

/-- How a round of the loop goes. -/
inductive StepRun (cwd : Text) (changedFiles : Option (List Text)) (step : TierStep) :
    List CallEvent → Outcome Text (StepResult × Bool) → Prop
  | inapplicable (scope : ¬ Applies changedFiles step) :
      StepRun cwd changedFiles step [] (.returned (⟨step.name, .notApplicable, 0, []⟩, false))
  | undecided {inquiries : List CallEvent} {error : Text} (scope : Applies changedFiles step)
      (asked : Inquiries step inquiries) : StepRun cwd changedFiles step inquiries (.threw error)
  | unavailable {inquiries : List CallEvent} {reason : Text} (scope : Applies changedFiles step)
      (asked : Inquiries step inquiries) :
      StepRun cwd changedFiles step inquiries
        (.returned (⟨step.name, .unavailable, 0, reason⟩, false))
  | broken {inquiries : List CallEvent} {startedAt : ℕ} {error : Text}
      (scope : Applies changedFiles step) (asked : Inquiries step inquiries) :
      StepRun cwd changedFiles step
        (inquiries ++ [⟨.now, startedAt⟩, ⟨.exec step .check (some step.command) step.args cwd
          (step.timeoutMinutes * 60000), .error error⟩])
        (.threw error)
  | ran {inquiries : List CallEvent} {startedAt endedAt durationMs : ℕ} {result : CommandResult}
      {output : Text} (scope : Applies changedFiles step) (asked : Inquiries step inquiries)
      (found : ¬ Missing inquiries step) (usable : ¬ ProbeFails cwd inquiries step) :
      StepRun cwd changedFiles step
        (inquiries ++ [⟨.now, startedAt⟩, checked cwd step result, ⟨.now, endedAt⟩])
        (.returned (⟨step.name, if result.passed then .passed else .failed, durationMs, output⟩,
          !result.passed))

section Rounds

variable {cwd : Text} {changedFiles : Option (List Text)} {step : TierStep}
  {trace more : List CallEvent}

theorem Missing.mono (h : Missing trace step) (hsub : more ⊆ trace) : Missing more step := by
  obtain ⟨command, hrequires, hanswer⟩ := h
  exact ⟨command, hrequires, fun answer hmem => hanswer answer (hsub hmem)⟩

theorem ProbeFails.mono (h : ProbeFails cwd trace step) (hsub : more ⊆ trace) :
    ProbeFails cwd more step := by
  obtain ⟨probe, hprobe, hanswer⟩ := h
  exact ⟨probe, hprobe, fun result hmem => hanswer result (hsub hmem)⟩

theorem not_unable (found : ¬ Missing more step) (usable : ¬ ProbeFails cwd more step)
    (hsub : more ⊆ trace) : ¬ (Missing trace step ∨ ProbeFails cwd trace step) := by
  rintro (hmissing | hfails)
  · exact found (hmissing.mono hsub)
  · exact usable (hfails.mono hsub)

theorem missingTool_none (h : Run (missingTool step) trace (.returned none)) :
    ¬ Missing trace step := by
  rintro ⟨command, hrequires, hanswer⟩
  unfold missingTool at h
  simp only [hrequires] at h
  cases h with
  | call _ _ answer _ _ rest =>
    obtain rfl : answer = .ok none := hanswer answer List.mem_cons_self
    cases rest

theorem probeFailure_none (h : Run (probeFailure cwd step) trace (.returned none)) :
    ¬ ProbeFails cwd trace step := by
  rintro ⟨probe, hprobe, hanswer⟩
  unfold probeFailure at h
  simp only [hprobe] at h
  cases h with
  | call _ _ answer _ _ rest =>
    cases answer with
    | error e => cases rest
    | ok result =>
      have hcode : result.code ≠ 0 := hanswer result List.mem_cons_self
      change Run (if result.code ≠ 0 then _ else _) _ _ at rest
      rw [if_pos hcode] at rest
      cases rest

theorem unavailability_none (h : Run (unavailability cwd step) trace (.returned none)) :
    ¬ Missing trace step ∧ ¬ ProbeFails cwd trace step := by
  rcases run_bind h with ⟨tool, before, after, rfl, hbefore, hafter⟩ | ⟨e, heq, -⟩ | ⟨heq, -⟩
  · cases tool with
    | some command => cases hafter
    | none =>
      exact ⟨fun hmissing => missingTool_none hbefore (hmissing.mono (List.subset_append_left _ _)),
        fun hfails => probeFailure_none hafter (hfails.mono (List.subset_append_right _ _))⟩
  · cases heq
  · cases heq

theorem unavailability_emits : (unavailability cwd step).Emits
    fun call => call.Inquires ∧ call.step = some step := by
  apply emits_bind
  · unfold missingTool
    split
    · exact emits_ret _
    · exact emits_bind ⟨⟨trivial, rfl⟩, fun answer => emits_raise answer⟩ fun found => by
        cases found <;> trivial
  · rintro (_ | command)
    · show (probeFailure cwd step).Emits _
      unfold probeFailure
      split
      · exact emits_ret _
      · refine emits_bind ⟨⟨trivial, rfl⟩, fun answer => emits_raise answer⟩ fun result => ?_
        split <;> trivial
    · trivial

theorem unavailability_inquires {outcome : Outcome Text (Option Text)}
    (h : Run (unavailability cwd step) trace outcome) : Inquiries step trace :=
  run_emits h unavailability_emits

theorem runStep_run {inquiries : List CallEvent} {outcome : Outcome Text (StepResult × Bool)}
    (h : Run (runStep cwd step) trace outcome) (hended : outcome.ended = true)
    (scope : Applies changedFiles step) (asked : Inquiries step inquiries)
    (found : ¬ Missing inquiries step) (usable : ¬ ProbeFails cwd inquiries step) :
    StepRun cwd changedFiles step (inquiries ++ trace) outcome := by
  cases h with
  | interrupt => cases hended
  | call _ _ startedAt _ _ rest =>
    cases rest with
    | interrupt => cases hended
    | call _ _ answer _ _ rest =>
      cases answer with
      | error e =>
        cases rest
        exact .broken scope asked
      | ok result =>
        cases rest with
        | interrupt => cases hended
        | call _ _ endedAt _ _ rest =>
          cases rest
          exact .ran scope asked found usable

/-- **A round of the loop.** -/
theorem verifyStep_run {options : Options} {outcome : Outcome Text (StepResult × Bool)}
    (h : Run (verifyStep options step) trace outcome) (hended : outcome.ended = true) :
    StepRun options.cwd options.changedFiles step trace outcome := by
  unfold verifyStep at h
  split at h
  · rename_i hscope
    cases h
    exact .inapplicable fun happlies => by rw [applies_iff.mp happlies] at hscope; cases hscope
  · rename_i hscope
    have scope : Applies options.changedFiles step := applies_iff.mpr (Bool.eq_false_iff.mpr hscope)
    rcases run_bind h with ⟨reason, before, after, rfl, hbefore, hafter⟩ | ⟨e, rfl,
      hthrew⟩ | ⟨rfl, -⟩
    · cases reason with
      | some reason =>
        cases hafter
        rw [List.append_nil]
        exact .unavailable scope (unavailability_inquires hbefore)
      | none =>
        obtain ⟨found, usable⟩ := unavailability_none hbefore
        exact runStep_run hafter hended scope (unavailability_inquires hbefore) found usable
    · exact .undecided scope (unavailability_inquires hthrew)
    · cases hended

end Rounds

/-! ### The runs of the loop -/

/-- How the loop goes. -/
inductive Course (cwd : Text) (changedFiles : Option (List Text)) :
    List TierStep → List CallEvent → Outcome Text (List StepResult) → Prop
  | nil : Course cwd changedFiles [] [] (.returned [])
  | threw {step : TierStep} {rest : List TierStep} {trace : List CallEvent} {error : Text}
      (round : StepRun cwd changedFiles step trace (.threw error)) :
      Course cwd changedFiles (step :: rest) trace (.threw error)
  | stopped {step : TierStep} {rest : List TierStep} {trace : List CallEvent} {result : StepResult}
      (round : StepRun cwd changedFiles step trace (.returned (result, true))) :
      Course cwd changedFiles (step :: rest) trace (.returned [result])
  | went {step : TierStep} {rest : List TierStep} {trace later : List CallEvent}
      {result : StepResult} {results : List StepResult}
      (round : StepRun cwd changedFiles step trace (.returned (result, false)))
      (others : Course cwd changedFiles rest later (.returned results)) :
      Course cwd changedFiles (step :: rest) (trace ++ later) (.returned (result :: results))
  | brokeOff {step : TierStep} {rest : List TierStep} {trace later : List CallEvent}
      {result : StepResult} {error : Text}
      (round : StepRun cwd changedFiles step trace (.returned (result, false)))
      (others : Course cwd changedFiles rest later (.threw error)) :
      Course cwd changedFiles (step :: rest) (trace ++ later) (.threw error)

/-- **The loop.**  Without `only`, its runs that come to an end are these. -/
theorem runSteps_course {options : Options} (hall : options.only = none) {steps : List TierStep} :
    ∀ {trace : List CallEvent} {outcome : Outcome Text (List StepResult)},
      Run (runSteps options steps) trace outcome → outcome.ended = true →
        Course options.cwd options.changedFiles steps trace outcome := by
  induction steps with
  | nil =>
    intro trace outcome h _
    cases h
    exact .nil
  | cons step rest ih =>
    intro trace outcome h hended
    have hkept : leftOut options step = false := by rw [leftOut, hall, Option.any_none]
    unfold runSteps at h
    rw [if_neg (by rw [hkept]; exact Bool.false_ne_true)] at h
    rcases run_bind h with ⟨⟨result, stops⟩, before, after, rfl, hround, h⟩ | ⟨e, rfl,
      hround⟩ | ⟨rfl, -⟩
    · have hround' := verifyStep_run hround rfl
      cases stops with
      | true =>
        cases h
        rw [List.append_nil]
        exact .stopped hround'
      | false =>
        rcases run_bind h with ⟨results, later, last, rfl, hothers, h⟩ | ⟨e, rfl,
          hothers⟩ | ⟨rfl, -⟩
        · cases h
          rw [List.append_nil]
          exact .went hround' (ih hothers rfl)
        · exact .brokeOff hround' (ih hothers rfl)
        · cases hended
    · exact .threw (verifyStep_run hround rfl)
    · cases hended

/-! ### What a round tells -/

section Rounds

variable {cwd : Text} {changedFiles : Option (List Text)} {step : TierStep}
  {trace inquiries : List CallEvent} {outcome : Outcome Text (StepResult × Bool)}
    {result : StepResult}

theorem not_failing_of_inquires {event : CallEvent} (h : event.op.Inquires) : ¬ Failing event := by
  obtain ⟨op, answer⟩ := event
  cases op with
  | now => exact id
  | which step command => exact id
  | exec step purpose command args cwd timeoutMs =>
    cases purpose with
    | probe => exact id
    | check => exact absurd h id

/-- No command of the step is run before it is asked for. -/
theorem checked_not_mem (asked : Inquiries step inquiries) (r : CommandResult) :
    checked cwd step r ∉ inquiries :=
  fun hmem => (asked _ hmem).1

theorem checked_mem_ran {startedAt endedAt : ℕ} {r r' : CommandResult}
    (asked : Inquiries step inquiries) :
    checked cwd step r' ∈ inquiries ++ [⟨.now, startedAt⟩, checked cwd step r, ⟨.now, endedAt⟩] ↔
      r' = r := by
  rw [List.mem_append, or_iff_right (checked_not_mem asked r')]
  constructor
  · intro hmem
    rcases hmem with _ | ⟨_, hmem⟩
    rcases hmem with _ | ⟨_, hmem⟩
    · rfl
    · rcases hmem with _ | ⟨_, hmem⟩
      cases hmem
  · rintro rfl
    simp

theorem passed_of_ran {startedAt endedAt : ℕ} {r : CommandResult}
    (asked : Inquiries step inquiries) :
    Passed cwd (inquiries ++ [⟨.now, startedAt⟩, checked cwd step r, ⟨.now, endedAt⟩]) step ↔
      r.passed = true := by
  unfold Passed CommandResult.passed
  simp [checked_mem_ran asked]

theorem StepRun.step_eq (h : StepRun cwd changedFiles step trace outcome) {event : CallEvent}
    (hmem : event ∈ trace) {other : TierStep} (hother : event.op.step = some other) :
      other = step := by
  have hasked : ∀ {inquiries : List CallEvent}, Inquiries step inquiries → event ∈ inquiries →
      other = step := by
    intro inquiries asked hmem
    exact Option.some.inj (hother.symm.trans (asked event hmem).2)
  cases h with
  | inapplicable => cases hmem
  | undecided _ asked => exact hasked asked hmem
  | unavailable _ asked => exact hasked asked hmem
  | broken _ asked =>
    rcases List.mem_append.mp hmem with hmem | hmem
    · exact hasked asked hmem
    · simp only [List.mem_cons, List.not_mem_nil, or_false] at hmem
      rcases hmem with rfl | rfl
      · cases hother
      · exact (Option.some.inj hother).symm
  | ran _ asked =>
    rcases List.mem_append.mp hmem with hmem | hmem
    · exact hasked asked hmem
    · simp only [List.mem_cons, List.not_mem_nil, or_false] at hmem
      rcases hmem with rfl | rfl | rfl
      · cases hother
      · exact (Option.some.inj hother).symm
      · cases hother

theorem StepRun.threw_spec {error : Text} (h : StepRun cwd changedFiles step trace (.threw error)) :
    Applies changedFiles step ∧ ¬ Passed cwd trace step := by
  cases h with
  | undecided scope asked => exact ⟨scope, fun ⟨r, hmem, _⟩ => checked_not_mem asked r hmem⟩
  | broken scope asked =>
    refine ⟨scope, fun ⟨r, hmem, _⟩ => ?_⟩
    rw [List.mem_append, or_iff_right (checked_not_mem asked r)] at hmem
    rcases hmem with _ | ⟨_, hmem⟩
    rcases hmem with _ | ⟨_, hmem⟩
    cases hmem

/-- What is recorded is neither a failure nor unavailable exactly when the step passed, if it
applies. -/
theorem StepRun.clean_iff {stops : Bool}
    (h : StepRun cwd changedFiles step trace (.returned (result, stops))) :
    (result.outcome ≠ .failed ∧ result.outcome ≠ .unavailable) ↔
      (Applies changedFiles step → Passed cwd trace step) := by
  cases h with
  | inapplicable scope => simp [scope]
  | unavailable scope asked =>
    have hnot : ¬ Passed cwd trace step := fun ⟨r, hmem, _⟩ => checked_not_mem asked r hmem
    simp [scope, hnot]
  | @ran _ _ _ _ r _ scope asked =>
    rw [passed_of_ran asked]
    cases r.passed <;> simp [scope]

theorem passed_eq_false_iff {r : CommandResult} :
    r.passed = false ↔ r.code ≠ 0 ∨ r.timedOut = true := by
  unfold CommandResult.passed
  rw [Bool.and_eq_false_iff, decide_eq_false_iff_not, Bool.not_eq_false']

/-- The loop ends with a failure of a step that could run. -/
theorem StepRun.stops_spec (h : StepRun cwd changedFiles step trace (.returned (result, true))) :
    result.name = step.name ∧ result.outcome = .failed ∧ Failed cwd trace step ∧
      ¬ (Missing trace step ∨ ProbeFails cwd trace step) := by
  generalize hstops :
    (Outcome.returned (result, true) : Outcome Text (StepResult × Bool)) = outcome at h
  cases h with
  | inapplicable => cases hstops
  | undecided => cases hstops
  | unavailable => cases hstops
  | broken => cases hstops
  | @ran inquiries _ _ _ r _ _ asked found usable =>
    cases hr : r.passed with
    | true => simp [hr] at hstops
    | false =>
      rw [hr] at hstops
      cases hstops
      exact ⟨rfl, rfl, ⟨r, (checked_mem_ran asked).mpr rfl, passed_eq_false_iff.mp hr⟩,
        not_unable found usable (List.subset_append_left inquiries _)⟩

/-- It goes on after a round without a failure, in which what could not run was told. -/
theorem StepRun.goes_spec (h : StepRun cwd changedFiles step trace (.returned (result, false))) :
    result.name = step.name ∧ result.outcome ≠ .failed ∧ (∀ event ∈ trace, ¬ Failing event) ∧
      (Applies changedFiles step → Missing trace step ∨ ProbeFails cwd trace step →
        result.outcome = .unavailable) := by
  generalize hstops :
    (Outcome.returned (result, false) : Outcome Text (StepResult × Bool)) = outcome at h
  cases h with
  | inapplicable scope =>
    cases hstops
    exact ⟨rfl, by simp, by simp, fun happlies => absurd happlies scope⟩
  | undecided => cases hstops
  | unavailable scope asked =>
    cases hstops
    exact ⟨rfl, by simp, fun event hmem => not_failing_of_inquires (asked event hmem).1,
      fun _ _ => rfl⟩
  | broken => cases hstops
  | @ran inquiries _ _ _ r _ _ asked found usable =>
    cases hr : r.passed with
    | false => simp [hr] at hstops
    | true =>
      rw [hr] at hstops
      cases hstops
      refine ⟨rfl, by simp, fun event hmem => ?_, fun _ hunable => ?_⟩
      · rcases List.mem_append.mp hmem with hmem | hmem
        · exact not_failing_of_inquires (asked event hmem).1
        · simp only [List.mem_cons, List.not_mem_nil, or_false] at hmem
          rcases hmem with rfl | rfl | rfl
          · exact id
          · intro hfailing
            exact Bool.false_ne_true ((passed_eq_false_iff.mpr hfailing).symm.trans hr)
          · exact id
      · exact absurd hunable (not_unable found usable (List.subset_append_left inquiries _))

/-- After a failure only the clock is read. -/
def Quiet (trace : List CallEvent) : Prop :=
  trace.Pairwise fun event later => Failing event → later.op = .now

theorem quiet_of_not_failing (h : ∀ event ∈ trace, ¬ Failing event) : Quiet trace :=
  List.pairwise_of_forall_mem_list fun event hmem _ _ hfailing => absurd hfailing (h event hmem)

theorem StepRun.quiet (h : StepRun cwd changedFiles step trace outcome) : Quiet trace := by
  have hasked : ∀ {inquiries : List CallEvent}, Inquiries step inquiries →
      ∀ event ∈ inquiries, ¬ Failing event :=
    fun asked event hmem => not_failing_of_inquires (asked event hmem).1
  have hown : ∀ {inquiries own : List CallEvent}, Inquiries step inquiries → Quiet own →
      Quiet (inquiries ++ own) := by
    intro inquiries own asked hquiet
    exact List.pairwise_append.mpr ⟨quiet_of_not_failing (hasked asked), hquiet,
      fun event hmem _ _ hfailing => absurd hfailing (hasked asked event hmem)⟩
  cases h with
  | inapplicable => exact .nil
  | undecided _ asked => exact quiet_of_not_failing (hasked asked)
  | unavailable _ asked => exact quiet_of_not_failing (hasked asked)
  | broken _ asked =>
    refine hown asked (quiet_of_not_failing fun event hmem => ?_)
    simp only [List.mem_cons, List.not_mem_nil, or_false] at hmem
    rcases hmem with rfl | rfl <;> exact id
  | ran _ asked =>
    refine hown asked ?_
    refine .cons (fun _ _ hfailing => absurd hfailing id) (.cons (fun later hmem _ => ?_) ?_)
    · rw [List.mem_singleton.mp hmem]
    · exact List.pairwise_singleton _ _

end Rounds

/-! ### What the loop tells -/

section Loop

variable {cwd : Text} {changedFiles : Option (List Text)} {steps : List TierStep}
  {trace : List CallEvent} {outcome : Outcome Text (List StepResult)} {results : List StepResult}

theorem Course.step_mem (h : Course cwd changedFiles steps trace outcome) {event : CallEvent}
    (hmem : event ∈ trace) {step : TierStep} (hstep : event.op.step = some step) :
      step ∈ steps := by
  induction h with
  | nil => cases hmem
  | threw round => exact List.mem_cons.mpr (.inl (round.step_eq hmem hstep))
  | stopped round => exact List.mem_cons.mpr (.inl (round.step_eq hmem hstep))
  | went round _ ih =>
    exact List.mem_cons.mpr ((List.mem_append.mp hmem).imp (round.step_eq · hstep) ih)
  | brokeOff round _ ih =>
    exact List.mem_cons.mpr ((List.mem_append.mp hmem).imp (round.step_eq · hstep) ih)

/-- **Nothing runs after a failure.** -/
theorem Course.quiet (h : Course cwd changedFiles steps trace outcome) : Quiet trace := by
  induction h with
  | nil => exact .nil
  | threw round => exact round.quiet
  | stopped round => exact round.quiet
  | went round _ ih =>
    exact List.pairwise_append.mpr ⟨round.quiet, ih,
      fun event hmem _ _ hfailing => absurd hfailing (round.goes_spec.2.2.1 event hmem)⟩
  | brokeOff round _ ih =>
    exact List.pairwise_append.mpr ⟨round.quiet, ih,
      fun event hmem _ _ hfailing => absurd hfailing (round.goes_spec.2.2.1 event hmem)⟩

/-- No step failed or was unavailable. -/
def Clean (results : List StepResult) : Prop :=
  ∀ result ∈ results, result.outcome ≠ .failed ∧ result.outcome ≠ .unavailable

theorem outcomeOf_ok {risk : RiskLevel} : (outcomeOf risk results).ok = true ↔ Clean results := by
  unfold outcomeOf Clean
  simp [List.filter_eq_nil_iff, forall_and]

/-- The step's own events decide whether it passed, among those of a round and of the later ones. -/
theorem passed_append {before after : List CallEvent} {step : TierStep} :
    Passed cwd (before ++ after) step ↔ Passed cwd before step ∨ Passed cwd after step := by
  unfold Passed
  simp only [List.mem_append, or_and_right, exists_or]

theorem passed_cons_iff {step : TierStep} {rest : List TierStep} {before after : List CallEvent}
    {round : Outcome Text (StepResult × Bool)} (hnew : step ∉ rest)
    (hbefore : StepRun cwd changedFiles step before round)
    (hafter : Course cwd changedFiles rest after outcome) :
    (∀ s ∈ step :: rest, Applies changedFiles s → Passed cwd (before ++ after) s) ↔
      (Applies changedFiles step → Passed cwd before step) ∧
        ∀ s ∈ rest, Applies changedFiles s → Passed cwd after s := by
  have hown : ¬ Passed cwd after step := fun ⟨_, hmem, _⟩ => hnew (hafter.step_mem hmem rfl)
  have hother : ∀ s ∈ rest, ¬ Passed cwd before s := fun s hs ⟨_, hmem, _⟩ =>
    hnew (hbefore.step_eq hmem rfl ▸ hs)
  rw [List.forall_mem_cons]
  refine and_congr ?_ (forall₂_congr fun s hs => ?_)
  · rw [passed_append, or_iff_left hown]
  · rw [passed_append, or_iff_right (hother s hs)]

/-- **When nothing failed and nothing was unavailable.** -/
theorem Course.clean_iff (h : Course cwd changedFiles steps trace outcome) (hnodup : steps.Nodup) :
    (∃ results, outcome = .returned results ∧ Clean results) ↔
      ∀ step ∈ steps, Applies changedFiles step → Passed cwd trace step := by
  induction h with
  | nil => simp [Clean]
  | threw round =>
    refine iff_of_false (by rintro ⟨_, hthrew, _⟩; cases hthrew) fun hall => ?_
    exact round.threw_spec.2 (hall _ List.mem_cons_self round.threw_spec.1)
  | stopped round =>
    have hfailed := round.stops_spec.2.1
    refine iff_of_false ?_ fun hall => ?_
    · rintro ⟨_, hreturned, hclean⟩
      cases hreturned
      exact (hclean _ List.mem_cons_self).1 hfailed
    · exact (round.clean_iff.mpr (hall _ List.mem_cons_self)).1 hfailed
  | went round others ih =>
    obtain ⟨hnew, hnodup⟩ := List.nodup_cons.mp hnodup
    rw [passed_cons_iff hnew round others, ← round.clean_iff, ← ih hnodup]
    simp only [Outcome.returned.injEq, exists_eq_left', Clean, List.forall_mem_cons]
  | brokeOff round others ih =>
    obtain ⟨hnew, hnodup⟩ := List.nodup_cons.mp hnodup
    rw [passed_cons_iff hnew round others, ← ih hnodup]
    refine iff_of_false ?_ ?_
    · rintro ⟨_, hthrew, _⟩
      cases hthrew
    · rintro ⟨-, _, hthrew, _⟩
      cases hthrew

/-- The first failure among the recorded steps. -/
def firstFailureOf (results : List StepResult) : Option StepResult :=
  (results.filter fun step => step.outcome = .failed).head?

/-- The step stands behind the one that failed first. -/
def AfterFailure (cwd : Text) (steps : List TierStep) (trace : List CallEvent) (step : TierStep)
    (firstFailure : Option StepResult) : Prop :=
  ∃ before failing after, steps = before ++ failing :: after ∧ step ∈ after ∧
    Failed cwd trace failing ∧ firstFailure.map StepResult.name = some failing.name

/-- **What could not run** is told, or was never reached. -/
theorem Course.accounted (h : Course cwd changedFiles steps trace outcome)
    (hresults : outcome = .returned results) {step : TierStep} (hstep : step ∈ steps)
    (happlies : Applies changedFiles step) (hunable : Missing trace step ∨
      ProbeFails cwd trace step) :
    (∃ result ∈ results, result.name = step.name ∧ result.outcome = .unavailable) ∨
      AfterFailure cwd steps trace step (firstFailureOf results) := by
  induction h generalizing results with
  | nil => cases hstep
  | threw => cases hresults
  | @stopped own rest trace result round =>
    cases hresults
    obtain ⟨hname, hfailed, hran, hable⟩ := round.stops_spec
    rcases List.mem_cons.mp hstep with rfl | hstep
    · exact absurd hunable hable
    · refine .inr ⟨[], own, rest, rfl, hstep, hran, ?_⟩
      simp [firstFailureOf, hfailed, hname]
  | @went own rest before after result others round later ih =>
    cases hresults
    obtain ⟨hname, hnot, -, hunavailable⟩ := round.goes_spec
    rcases List.mem_cons.mp hstep with rfl | hstep
    · have hsub := List.subset_append_left before after
      exact .inl ⟨result, List.mem_cons_self, hname,
        hunavailable happlies (hunable.imp (·.mono hsub) (·.mono hsub))⟩
    · have hsub := List.subset_append_right before after
      rcases ih rfl hstep (hunable.imp (·.mono hsub) (·.mono hsub)) with ⟨found, hfound,
        htold⟩ | hbehind
      · exact .inl ⟨found, List.mem_cons_of_mem _ hfound, htold⟩
      · obtain ⟨front, failing, back, rfl, hback, ⟨r, hmem, hran⟩, hfirst⟩ := hbehind
        refine .inr ⟨own :: front, failing, back, rfl, hback, ⟨r, hsub hmem, hran⟩, ?_⟩
        rwa [firstFailureOf, List.filter_cons_of_neg (by simpa using hnot)]
  | brokeOff => cases hresults

end Loop

/-! ### The whole -/

section Whole

variable {policy : LoopPolicy} {risk : RiskLevel} {changedFiles : Option (List Text)} {cwd : Text}
  {depth : ℕ} {trace : List CallEvent} {outcome : Outcome Text VerificationOutcome}

theorem verify_of_steps {steps : List TierStep}
    (hsteps : stepsForRisk policy depth risk = some steps) :
    verify ⟨cwd, some risk, some policy, changedFiles, none⟩ depth =
      (do
        let results ← runSteps ⟨cwd, some risk, some policy, changedFiles, none⟩ steps
        .ret (outcomeOf risk results)) := by
  unfold verify tierSteps
  simp only [Options.level, Option.getD_some, hsteps]

/-- What the loop made of the steps is what is returned. -/
theorem verify_course {steps : List TierStep} (hsteps : stepsForRisk policy depth risk = some steps)
    (hrun : Run (verify ⟨cwd, some risk, some policy, changedFiles, none⟩ depth) trace outcome)
    (hended : outcome.ended = true) :
    (∃ results, Course cwd changedFiles steps trace (.returned results) ∧
      outcome = .returned (outcomeOf risk results)) ∨
    ∃ error, Course cwd changedFiles steps trace (.threw error) ∧ outcome = .threw error := by
  rw [verify_of_steps hsteps] at hrun
  rcases run_bind hrun with ⟨results, before, after, rfl, hloop, hlast⟩ | ⟨error, rfl,
    hloop⟩ | ⟨rfl, -⟩
  · cases hlast
    rw [List.append_nil]
    exact .inl ⟨results, runSteps_course rfl hloop rfl, rfl⟩
  · exact .inr ⟨error, runSteps_course rfl hloop rfl, rfl⟩
  · cases hended

/-- A policy whose steps are never collected is never verified with. -/
theorem verify_without_steps (hsteps : stepsForRisk policy depth risk = none)
    (hrun : Run (verify ⟨cwd, some risk, some policy, changedFiles, none⟩ depth) trace outcome) :
    trace = [] ∧ ∃ error, outcome = .threw error := by
  unfold verify tierSteps at hrun
  simp only [Options.level, Option.getD_some, hsteps] at hrun
  cases hrun
  exact ⟨rfl, _, rfl⟩

/-- **Verification.**  It returns ok exactly when every step of the level that applies to the change
was executed and exited 0 without timing out; a step that applies and cannot run is told unavailable
or stands behind the first failure; and nothing is looked up or run after a failure. -/
theorem verify_settles
    (hrun : Run (verify ⟨cwd, some risk, some policy, changedFiles, none⟩ depth) trace outcome)
    (hended : outcome.ended = true) :
    ((∃ result, outcome = .returned result ∧ result.ok = true) ↔
      ∃ steps, stepsForRisk policy depth risk = some steps ∧
        ∀ step ∈ steps, Applies changedFiles step → Passed cwd trace step) ∧
    (∀ result, outcome = .returned result → ∃ steps, stepsForRisk policy depth risk = some steps ∧
      ∀ step ∈ steps, Applies changedFiles step → Missing trace step ∨ ProbeFails cwd trace step →
        step.name ∈ result.unavailable ∨ AfterFailure cwd steps trace step result.firstFailure) ∧
    trace.Pairwise fun event later => Failing event → later.op = .now := by
  cases hsteps : stepsForRisk policy depth risk with
  | none =>
    obtain ⟨rfl, error, rfl⟩ := verify_without_steps hsteps hrun
    refine ⟨iff_of_false ?_ ?_, ?_, .nil⟩
    · rintro ⟨_, hreturned, _⟩
      cases hreturned
    · rintro ⟨_, hnone, _⟩
      cases hnone
    · intro _ hreturned
      cases hreturned
  | some steps =>
    have hnodup : steps.Nodup := (collect_cumulative depth risk steps hsteps).once.of_map
    simp only [Option.some.injEq, exists_eq_left']
    rcases verify_course hsteps hrun hended with ⟨results, hcourse, rfl⟩ | ⟨error, hcourse, rfl⟩
    · refine ⟨?_, fun result hresult step hstep happlies hunable => ?_, hcourse.quiet⟩
      · rw [← hcourse.clean_iff hnodup]
        simp only [Outcome.returned.injEq, exists_eq_left', outcomeOf_ok]
      · cases hresult
        refine (hcourse.accounted rfl hstep happlies hunable).imp_left ?_
        rintro ⟨result, hmem, hname, htold⟩
        exact List.mem_map.mpr ⟨result, List.mem_filter.mpr ⟨hmem, decide_eq_true htold⟩, hname⟩
    · refine ⟨?_, fun _ hreturned => ?_, hcourse.quiet⟩
      · rw [← hcourse.clean_iff hnodup]
        refine iff_of_false ?_ ?_
        · rintro ⟨_, hreturned, _⟩
          cases hreturned
        · rintro ⟨_, hreturned, _⟩
          cases hreturned
      · cases hreturned

end Whole

/-! ### A step scoped to paths -/

/-- Browser tests for what is below `src`, that need Docker. -/
def scopedStep : TierStep :=
  ⟨lit "e2e", lit "bun", [lit "run", lit "e2e"], some [lit "src/**"], some (lit "docker"), none, 20⟩

def scopedTiers : Json :=
  .obj [(lit "low", sampleTier [] "Lint"),
    (lit "medium", .obj [
      (lit "steps", .arr [.obj [
        (lit "name", .str (lit "e2e")), (lit "command", .str (lit "bun")),
        (lit "args", .arr [.str (lit "run"), .str (lit "e2e")]),
        (lit "whenChanged", .arr [.str (lit "src/**")]), (lit "requires", .str (lit "docker"))]]),
      (lit "reviewers", .num 1)]),
    (lit "high", sampleTier [] "Browser tests")]

/-- The sample document with these tiers. -/
def scopedDocument : Json :=
  match sampleDocument "low" [] with
  | .obj members => .obj (members.map fun m => if m.1 = lit "tiers" then (m.1, scopedTiers) else m)
  | document => document

def scopedPolicy : LoopPolicy :=
  { samplePolicy .low none with
    tiers := { (samplePolicy .low none).tiers with medium := ⟨none, [scopedStep], 1⟩ } }

/-- The options of a change of one file. -/
def scopedOptions (file : String) : Options :=
  ⟨lit "/tmp", some .medium, some scopedPolicy, some [lit file], none⟩

theorem scopedPolicy_steps : stepsForRisk scopedPolicy 1 .medium =
    some [scopedStep] := by decide +kernel

/-- The tool is found, and the step passes. -/
def foundTrace : List CallEvent :=
  [⟨.which scopedStep (lit "docker"), .ok (some (lit "/usr/bin/docker"))⟩, ⟨.now, (0 : ℕ)⟩,
    checked (lit "/tmp") scopedStep ⟨0, [], [], false⟩, ⟨.now, (5 : ℕ)⟩]

theorem foundTrace_run : Run (verify (scopedOptions "src/service.ts") 1) foundTrace
    (.returned (outcomeOf .medium [⟨lit "e2e", .passed, 5, []⟩])) := by
  have hscope : outOfScope (some [lit "src/service.ts"]) scopedStep = false := by decide +kernel
  unfold scopedOptions
  rw [verify_of_steps scopedPolicy_steps]
  unfold runSteps verifyStep
  rw [hscope]
  exact .call _ _ _ _ _ (.call _ _ _ _ _ (.call _ _ _ _ _ (.call _ _ _ _ _ (.ret _))))

theorem verify_settles_found :
    (outcomeOf .medium [⟨lit "e2e", .passed, 5, []⟩]).ok = true ∧
      ∃ steps, stepsForRisk scopedPolicy 1 .medium = some steps ∧
        ∀ step ∈ steps, Applies (some [lit "src/service.ts"]) step →
          Passed (lit "/tmp") foundTrace step :=
  ⟨by decide, (verify_settles foundTrace_run rfl).1.mp ⟨_, rfl, by decide⟩⟩

/-- A step that the change does not touch is not looked at, so a tool it lacks is not told. -/
theorem untouched_step_untold : parsePolicy scopedDocument = some scopedPolicy ∧
    stepsForRisk scopedPolicy 1 .medium = some [scopedStep] ∧
    ∃ result, Run (verify (scopedOptions "README.md") 1) [] (.returned result) ∧
      result.ok = true ∧ Missing [] scopedStep ∧ scopedStep.name ∉ result.unavailable ∧
      result.firstFailure = none := by
  refine ⟨by decide +kernel, scopedPolicy_steps,
    outcomeOf .medium [⟨lit "e2e", .notApplicable, 0, []⟩], ?_, by decide,
    ⟨lit "docker", rfl, by simp⟩, by decide, by decide⟩
  have hscope : outOfScope (some [lit "README.md"]) scopedStep = true := by decide +kernel
  unfold scopedOptions
  rw [verify_of_steps scopedPolicy_steps]
  unfold runSteps verifyStep
  rw [hscope]
  exact .ret _

end Newsdeck.Runner.Verification

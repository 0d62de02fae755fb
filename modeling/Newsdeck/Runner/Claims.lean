import Mathlib.Data.List.Dedup
import Newsdeck.Runner.Budget
import Newsdeck.Runner.Rehearsal

/-!
# The issues a session claims

The session counts an issue, and tells the budget of it, when the call of `runOnce` that claimed it
returns.  A call that throws after the claim is not counted, and the next cycle may claim another
issue.

* `Account` — the budget, and every claim with its time, whether or not anything counts it;
* `Idle`, `Checked`, `Owing` — the invariant between two calls, after a check that passed, and
  within a call that claimed an issue;
* `runOnce_account`, `cycle_account` — one call, and one turn of the loop;
* `claims_within` — the limit holds, and the budget is never overdrawn, unless some call threw after
  its claim.
-/

namespace Newsdeck.Runner

open Ecma Loop Effects Effects.Prog Window

/-- The issue that receives the label of a run at work; a call that throws is taken to have given it
to none. -/
def claimOf : RunnerEvent → Option ℕ
  | ⟨.addLabels number labels, answer⟩ =>
      if inProgressLabel ∈ labels ∧ succeeded answer = true then some number else none
  | _ => none

/-- A call of `runOnce`, after the check of the budget, threw when it had claimed an issue. -/
def ClaimLost [Host] [Unicode] (deps : RunnerDeps) (trace : List RunnerEvent) : Prop :=
  ∃ before once after skip e, trace = before ++ ⟨.checkBudget, none⟩ :: (once ++ after) ∧
    Run (runOnce deps skip) once (.threw e) ∧ ∃ event ∈ once, (claimOf event).isSome = true

/-! ### The world of a budget -/

structure Account where
  budget : Budget
  clock : ℕ
  /-- The issues that were claimed, with the time of each claim. -/
  claims : List (ℕ × ℕ)
  /-- When the budget was last checked. -/
  checkedAt : Option ℕ
  /-- Some issue was claimed although the check, counting every claim, reported a limit. -/
  overdrawn : Bool

def newAccount (limits : BudgetLimits) (now : ℕ) : Account :=
  ⟨newBudget limits now, now, [], none, false⟩

/-- The last check passes when it counts every claim made so far. -/
def Account.cleared (account : Account) : Bool :=
  match account.checkedAt with
  | none => false
  | some at_ => ((account.budget.counting (account.claims.map Prod.snd)).check at_).1.isNone

def Account.moved (account : Account) (now : ℕ) : RunnerEvent → Account
  | ⟨.recordInvocation, _⟩ => { account with budget := account.budget.recordInvocation now }
  | ⟨.recordIssue, _⟩ => { account with budget := account.budget.recordIssue now }
  | ⟨.checkBudget, _⟩ =>
      { account with budget := (account.budget.check now).2, checkedAt := some now }
  | ⟨.snapshot, _⟩ => { account with budget := (account.budget.snapshot now).2 }
  | event =>
      match claimOf event with
      | none => account
      | some number =>
          { account with
            claims := account.claims ++ [(number, now)]
            overdrawn := account.overdrawn || !account.cleared }

/-- The budget answers for itself. -/
def Account.Answers (account : Account) (now : ℕ) : RunnerEvent → Prop
  | ⟨.checkBudget, answer⟩ => answer = (account.budget.check now).1
  | ⟨.snapshot, answer⟩ => answer = (account.budget.snapshot now).1
  | _ => True

/-- Time does not run backwards. -/
def accountStep (account : Account) (event : RunnerEvent) (account' : Account) : Prop :=
  ∃ now, account.clock ≤ now ∧ account.Answers now event ∧
    account' = { account.moved now event with clock := now }

/-! ### The invariant -/

/-- At most `count` issues were claimed, and the budget knows of all of them. -/
structure Idle (count : ℕ) (account : Account) : Prop where
  le : account.claims.length ≤ count
  covers : Covers account.budget.issues (account.claims.map Prod.snd) (account.clock - dayMs)
  sound : account.overdrawn = false

/-- The budget was checked, and nothing has happened since. -/
def Checked (count : ℕ) (account : Account) : Prop := Idle count account ∧ account.cleared = true

def Account.withClaims (account : Account) (claims : List (ℕ × ℕ)) : Account :=
  { account with claims := claims }

/-- The last claim may still be missing in the budget. -/
def Owing (count : ℕ) (account : Account) : Prop :=
  Idle count account ∨ ∃ earlier number at_, account.claims = earlier ++ [(number, at_)] ∧
    at_ ≤ account.clock ∧ Idle count (account.withClaims earlier)

/-- The operation claims nothing. -/
def NotClaim (op : Op) : Prop := ∀ answer, claimOf ⟨op, answer⟩ = none

section Step

variable {count now : ℕ} {account account' : Account} {op : Op} {answer : op.Answer}

theorem Idle.mono {count' : ℕ} (h : Idle count account) (hle : count ≤ count') :
    Idle count' account :=
  ⟨h.le.trans hle, h.covers, h.sound⟩

theorem Owing.bounds (h : Owing count account) :
    account.claims.length ≤ count + 1 ∧ account.overdrawn = false := by
  rcases h with h | ⟨earlier, number, at_, hclaims, -, h⟩
  · exact ⟨h.le.trans (Nat.le_succ _), h.sound⟩
  · have hle : earlier.length ≤ count := h.le
    refine ⟨?_, h.sound⟩
    rw [hclaims, List.length_append]
    exact Nat.succ_le_succ hle

/-- Whatever is no claim leaves the claims alone, and the budget with all it counted. -/
theorem idle_moved (hclaim : claimOf ⟨op, answer⟩ = none) (h : Idle count account)
    (hnow : account.clock ≤ now) :
    Idle count { account.moved now ⟨op, answer⟩ with clock := now } := by
  have hcovers := h.covers.later (Nat.sub_le_sub_right hnow dayMs)
  cases op with
  | recordInvocation => exact ⟨h.le, hcovers, h.sound⟩
  | recordIssue => exact ⟨h.le, hcovers.recorded now, h.sound⟩
  | checkBudget =>
    simp only [Account.moved, Budget.check_snd]
    exact ⟨h.le, hcovers.prune (Nat.le_refl _), h.sound⟩
  | snapshot => exact ⟨h.le, hcovers.prune (Nat.le_refl _), h.sound⟩
  | addLabels number labels =>
    simp only [Account.moved, hclaim]
    exact ⟨h.le, hcovers, h.sound⟩
  | _ => exact ⟨h.le, hcovers, h.sound⟩

theorem idle_step (hclaim : claimOf ⟨op, answer⟩ = none) (h : Idle count account)
    (hstep : accountStep account ⟨op, answer⟩ account') : Idle count account' := by
  obtain ⟨now, hnow, -, rfl⟩ := hstep
  exact idle_moved hclaim h hnow

/-- The claims and the budget move apart from each other. -/
theorem moved_withClaims (hclaim : claimOf ⟨op, answer⟩ = none) (claims : List (ℕ × ℕ)) :
    (account.moved now ⟨op, answer⟩).claims = account.claims ∧
      (account.withClaims claims).moved now ⟨op, answer⟩ =
        (account.moved now ⟨op, answer⟩).withClaims claims := by
  cases op with
  | addLabels number labels =>
    have hsame : ∀ account : Account, account.moved now ⟨.addLabels number labels, answer⟩ =
        account :=
      fun account => by simp only [Account.moved, hclaim]
    rw [hsame, hsame]
    exact ⟨rfl, rfl⟩
  | _ => exact ⟨rfl, rfl⟩

theorem owing_step (hclaim : claimOf ⟨op, answer⟩ = none) (h : Owing count account)
    (hstep : accountStep account ⟨op, answer⟩ account') : Owing count account' := by
  rcases h with h | ⟨earlier, number, at_, hclaims, hat, h⟩
  · exact .inl (idle_step hclaim h hstep)
  · obtain ⟨now, hnow, -, rfl⟩ := hstep
    have hparts : (account.moved now ⟨op, answer⟩).claims = account.claims ∧ _ :=
      moved_withClaims hclaim earlier
    obtain ⟨hsame, hmoved⟩ := hparts
    refine .inr ⟨earlier, number, at_, hsame.trans hclaims, hat.trans hnow, ?_⟩
    have hidle := idle_moved hclaim h hnow
    rw [hmoved] at hidle
    exact hidle

/-- What is recorded covers the claim it is recorded for. -/
theorem Owing.recorded {answer : Op.Answer .recordIssue} (h : Owing count account)
    (hstep : accountStep account ⟨.recordIssue, answer⟩ account') : Idle (count + 1) account' := by
  rcases h with h | ⟨earlier, number, at_, hclaims, hat, h⟩
  · exact (idle_step rfl h hstep).mono (Nat.le_succ _)
  · obtain ⟨now, hnow, -, rfl⟩ := hstep
    have hle : earlier.length ≤ count := h.le
    have hcovers : Covers account.budget.issues (earlier.map Prod.snd) (account.clock - dayMs) :=
      h.covers
    refine ⟨?_, ?_, h.sound⟩
    · show account.claims.length ≤ count + 1
      rw [hclaims, List.length_append]
      exact Nat.succ_le_succ hle
    · show Covers (account.budget.issues ++ [now]) (account.claims.map Prod.snd) (now - dayMs)
      rw [hclaims, List.map_append]
      exact (hcovers.append (hat.trans hnow)).later (Nat.sub_le_sub_right hnow dayMs)

/-- Nothing is recorded or checked, and nothing claimed. -/
def Aloof (op : Op) : Prop := ∀ account now answer, Account.moved account now ⟨op, answer⟩ = account

theorem checked_step (hop : Aloof op) (h : Checked count account)
    (hstep : accountStep account ⟨op, answer⟩ account') : Checked count account' := by
  obtain ⟨now, hnow, -, rfl⟩ := hstep
  rw [hop]
  exact ⟨⟨h.1.le, h.1.covers.later (Nat.sub_le_sub_right hnow dayMs), h.1.sound⟩, h.2⟩

/-- A check that passes would have passed with every claim counted. -/
theorem Idle.checked {answer : Op.Answer .checkBudget} (h : Idle count account)
    (hstep : accountStep account ⟨.checkBudget, answer⟩ account') (hpasses : answer = none) :
    Checked count account' := by
  refine ⟨idle_step rfl h hstep, ?_⟩
  obtain ⟨now, hnow, hanswer, rfl⟩ := hstep
  have hpassed : (account.budget.check now).1 = none := hanswer.symm.trans hpasses
  have hroom : (account.budget.prune now).Room now :=
    Budget.room_prune.mpr (Budget.check_eq_none_iff.mp hpassed)
  have hagain : ((account.budget.prune now).check now).1 = none :=
    Budget.check_eq_none_iff.mpr hroom
  have hcovers : Covers (account.budget.prune now).issues (account.claims.map Prod.snd)
      (now - dayMs) :=
    (h.covers.later (Nat.sub_le_sub_right hnow dayMs)).prune (Nat.le_refl _)
  have hcounting := Budget.check_counting hcovers hagain
  show (((account.budget.check now).2.counting (account.claims.map Prod.snd)).check now).1.isNone =
    true
  rw [Budget.check_snd]
  exact Option.isNone_iff_eq_none.mpr hcounting

/-- A claim right after the check. -/
theorem Checked.claims {number : ℕ} (h : Checked count account)
    (hclaim : claimOf ⟨op, answer⟩ = some number)
    (hstep : accountStep account ⟨op, answer⟩ account') : Owing count account' := by
  obtain ⟨now, hnow, -, rfl⟩ := hstep
  cases op with
  | addLabels issue labels =>
    refine .inr ⟨account.claims, number, now, ?_, Nat.le_refl _, ?_⟩
    · simp only [Account.moved, hclaim]
    · refine ⟨h.1.le, ?_, ?_⟩
      · simp only [Account.moved, hclaim]
        exact h.1.covers.later (Nat.sub_le_sub_right hnow dayMs)
      · simp only [Account.moved, hclaim, Account.withClaims, h.1.sound, h.2]
        rfl
  | _ => cases hclaim

end Step

/-! ### One call -/

section Once

variable {count : ℕ} {account : Account} {α : Type}

/-- A part that claims nothing. -/
theorem idle_part {p : Action α} (hp : p.Emits NotClaim) (h : Idle count account) :
    Ensures accountStep (Idle count) (fun _ => Idle count) p account fun _ => Idle count :=
  ensures_emits (Idle count) hp (fun _ answer _ _ hop hs hstep => idle_step (hop answer) hs hstep) h

theorem owing_part {p : Action α} (hp : p.Emits NotClaim) (h : Owing count account) :
    Ensures accountStep (Owing count) (fun _ => Owing count) p account fun _ => Owing count :=
  ensures_emits (Owing count) hp
    (fun _ answer _ _ hop hs hstep => owing_step (hop answer) hs hstep) h

theorem notClaim_of_laterOp {number : ℕ} (op : Op) (h : LaterOp number op) : NotClaim op := by
  intro answer
  cases op with
  | addLabels issue labels => exact if_neg fun hclaim => h.2 hclaim.1
  | _ => rfl

theorem aloof_of_planOp (op : Op) (h : PlanOp op) : Aloof op := by
  intro account now answer
  cases op <;> first | rfl | exact h.elim

/-- What a call does with the account. -/
abbrev Spends (p : Action α) (account : Account) (count : ℕ) (post : α → Account → Prop) : Prop :=
  Ensures accountStep (Owing count) (fun _ => Owing count) p account post

theorem aloof_bind {β : Type} {p : Action α} {f : α → Action β} {post : β → Account → Prop}
    (hp : p.Emits Aloof) (h : Checked count account)
    (hf : ∀ x account', Checked count account' → Spends (f x) account' count post) :
    Spends (p >>= f) account count post := by
  refine ensures_bind ((ensures_emits (Checked count) hp
    (fun _ _ _ _ hop hs hstep => checked_step hop hs hstep) h).mono ?_ ?_ ?_)
  · exact fun x account' h => hf x account' h
  · exact fun _ _ h => .inl h.1
  · exact fun _ h => .inl h.1

theorem later_bind {β : Type} {number : ℕ} {p : Action α} {f : α → Action β}
    {post : β → Account → Prop} (hp : p.Emits (LaterOp number)) (h : Owing count account)
    (hf : ∀ x account', Owing count account' → Spends (f x) account' count post) :
    Spends (p >>= f) account count post :=
  ensures_bind ((owing_part (hp.mono notClaim_of_laterOp) h).weaken hf)

variable [Host] [Unicode]

omit [Host] [Unicode] in
/-- The claim comes right after the check. -/
theorem claim_account {job : Job} (h : Checked count account) :
    Spends (claim job) account count fun _ => Owing count := by
  unfold claim
  refine aloof_bind ⟨fun _ _ _ => rfl, fun answer => emits_raise answer⟩ h fun _ account h => ?_
  refine aloof_bind ⟨fun _ _ _ => rfl, fun answer => emits_raise answer⟩ h fun _ account h => ?_
  refine ensures_bind (ensures_call (.inl h.1) fun answer account' hstep => ?_)
  have howing : Owing count account' := by
    cases hclaim : claimOf ⟨.addLabels job.number [inProgressLabel], answer⟩ with
    | none => exact owing_step hclaim (.inl h.1) hstep
    | some number => exact h.claims hclaim hstep
  refine ensures_raise (fun _ _ => ?_) fun _ _ => howing
  refine later_bind (removeLabel_emits _) howing fun _ account h => ?_
  have hread : readJournal.Emits (LaterOp job.number) := ⟨trivial, fun _ => trivial⟩
  refine later_bind hread h fun journal account h => ?_
  have hrecord : (recordFor job journal).Emits (LaterOp job.number) := recordFor_emits job journal
  refine later_bind hrecord h fun record account h => ?_
  have hsave : ∀ draft, (save draft).Emits (LaterOp job.number) := fun draft => save_emits draft
  exact owing_part ((hsave _).mono notClaim_of_laterOp) h

/-- A run of `workIssue` claims one issue at most. -/
theorem workJob_account {job : Job} (h : Checked count account) :
    Spends (workJob job) account count fun _ => Owing count := by
  unfold workJob
  exact ensures_bind ((claim_account h).weaken fun draft account' h =>
    owing_part ((afterClaim_emits job draft).mono notClaim_of_laterOp) h)

/-- A decision to report reports no outcome. -/
theorem plan_reports (deps : RunnerDeps) (skip : Option (List ℕ)) :
    (plan deps skip).Returns fun decision =>
      ∀ result, decision = .report result → result.outcomes = [] := by
  unfold plan
  refine Prog.returns_bind fun journal => ?_
  dsimp only [Prog.Returns]
  split
  · unfold planResume
    refine Prog.returns_bind ((Prog.returns_true _).mono fun resumption _ => ?_)
    split
    · rintro result ⟨⟩
      rfl
    · refine Prog.returns_bind fun answer => Prog.returns_raise fun issue _ => ?_
      rintro result ⟨⟩
  · unfold planStart
    refine Prog.returns_bind fun answer => Prog.returns_raise fun listed _ => ?_
    dsimp only
    split
    · rintro result ⟨⟩
      rfl
    · rintro result ⟨⟩

/-- A call that returns has claimed an issue only if it reports an outcome. -/
theorem runOnce_account {deps : RunnerDeps} {skip : Option (List ℕ)} (h : Checked count account) :
    Spends (runOnce deps skip) account count fun result account' =>
      (result.outcomes = [] ∧ Idle count account') ∨
        ∃ outcome, result.outcomes = [outcome] ∧ Owing count account' := by
  have hwork : ∀ (issue : IssueSummary) (options : WorkOptions) (account : Account),
      Checked count account →
      Spends (workIssue deps issue options >>= fun outcome => .ret (onceResult outcome))
        account count
        fun result account' => (result.outcomes = [] ∧ Idle count account') ∨
          ∃ outcome, result.outcomes = [outcome] ∧ Owing count account' := by
    intro issue options account h
    exact ensures_bind ((workJob_account h).weaken fun outcome _ h =>
      ensures_ret (.inr ⟨outcome, rfl, h⟩))
  unfold runOnce
  have hplan := (plan_emits deps skip).mono aloof_of_planOp
  refine ensures_bind (((ensures_emits (Checked count) hplan
    (fun _ _ _ _ hop hs hstep => checked_step hop hs hstep) h).returns
      (plan_reports deps skip)).mono ?_ ?_ ?_)
  · rintro decision account' ⟨h, hreport⟩
    cases decision with
    | report result => exact ensures_ret (.inl ⟨hreport result rfl, h.1⟩)
    | resume issue startRound resumption => exact hwork _ _ _ h
    | start issue => exact hwork _ _ _ h
  · exact fun _ _ h => .inl h.1
  · exact fun _ h => .inl h.1

end Once

/-! ### The session -/

section Sessions

variable [Host] [Unicode] {deps : RunnerDeps} {w : Account × List RunnerEvent} {α : Type}

theorem ClaimLost.append {trace : List RunnerEvent} (h : ClaimLost deps trace)
    (later : List RunnerEvent) : ClaimLost deps (trace ++ later) := by
  obtain ⟨before, once, after, skip, e, rfl, hrun, hclaim⟩ := h
  exact ⟨before, once, after ++ later, skip, e, by simp, hrun, hclaim⟩

/-- What is to be shown of every end. -/
def Kept (deps : RunnerDeps) (w : Account × List RunnerEvent) : Prop :=
  ClaimLost deps w.2 ∨ (w.1.claims.length ≤ issueBudget deps.config ∧ w.1.overdrawn = false)

/-- The session has counted every claim. -/
def Within (deps : RunnerDeps) (session : Session) (w : Account × List RunnerEvent) : Prop :=
  ClaimLost deps w.2 ∨ (Idle session.taken w.1 ∧ session.taken ≤ issueBudget deps.config)

def CycleEnd.Within (deps : RunnerDeps) (w : Account × List RunnerEvent) : CycleEnd → Prop
  | .finished _ => Kept deps w
  | .retry session => Runner.Within deps session w
  | .completed session => Runner.Within deps session w

theorem Within.kept {session : Session} (h : Within deps session w) : Kept deps w :=
  h.imp_right fun ⟨hidle, hle⟩ => ⟨hidle.le.trans hle, hidle.sound⟩

abbrev Bounds (deps : RunnerDeps) (p : Action α) (w : Account × List RunnerEvent)
    (post : α → Account × List RunnerEvent → Prop) : Prop :=
  Ensures (Noted accountStep) (Kept deps) (fun _ => Kept deps) p w post

/-- Nothing is promised any more. -/
theorem bounds_of_lost (h : ClaimLost deps w.2) (p : Action α) :
    Bounds deps p w fun _ w' => ClaimLost deps w'.2 := by
  refine (ensures_emits (fun w' : Account × List RunnerEvent => ClaimLost deps w'.2) (emits_true p)
    ?_ h).mono (fun _ _ h => h) (fun _ _ h => .inl h) fun _ h => .inl h
  rintro op answer s s' - hs hstep
  rw [hstep.2]
  exact hs.append _

/-- A part that claims nothing. -/
theorem within_part {session : Session} {p : Action α} (hp : p.Emits NotClaim)
    (h : Within deps session w) : Bounds deps p w fun _ => Within deps session := by
  rcases h with h | ⟨hidle, hle⟩
  · exact (bounds_of_lost h p).weaken fun _ _ h => .inl h
  · have hpart := (idle_part hp hidle).within Prod.fst
      fun (w : Account × List RunnerEvent) event w'
        (hstep : Noted accountStep w event w') => hstep.1
    exact hpart.mono (fun _ _ h => .inr ⟨h, hle⟩) (fun _ _ h => .inr ⟨h.le.trans hle, h.sound⟩)
      fun _ h => .inr ⟨h.le.trans hle, h.sound⟩

theorem within_bind {β : Type} {session : Session} {p : Action α} {f : α → Action β}
    {post : β → Account × List RunnerEvent → Prop} (hp : p.Emits NotClaim)
    (h : Within deps session w)
    (hf : ∀ x w', Within deps session w' → Bounds deps (f x) w' post) :
      Bounds deps (p >>= f) w post :=
  ensures_bind ((within_part hp h).weaken hf)

omit [Host] [Unicode] in
theorem finishSession_emits (session : Session) (stopReason : StopReason) (detail : Text) :
    (finishSession session stopReason detail).Emits NotClaim := by
  unfold finishSession
  refine emits_bind ⟨fun _ => rfl, fun _ => trivial⟩ fun _ => ?_
  refine emits_bind ⟨fun _ => rfl, fun _ => trivial⟩ fun _ => ?_
  exact emits_bind ⟨fun _ => rfl, fun _ => trivial⟩ fun _ => trivial

omit [Host] [Unicode] in
theorem notClaim_of_moveOp (op : Op) (h : MoveOp op) : NotClaim op := by
  intro answer
  cases op with
  | addLabels issue labels =>
    have hlabels : labels = [blockedLabel] := h
    refine if_neg fun hclaim => inProgressLabel_notMem_blocked ?_
    rw [← hlabels]
    exact hclaim.1
  | _ => rfl

theorem finish_bounds {session : Session} {stopReason : StopReason} {detail : Text}
    (h : Within deps session w) :
    Bounds deps (finishSession session stopReason detail >>=
      fun result => .ret (CycleEnd.finished result))
      w fun ending w' => ending.Within deps w' :=
  within_bind (finishSession_emits _ _ _) h fun _ _ h => ensures_ret h.kept

theorem tolerate_bounds {session : Session} {detail : ℕ → Text} (h : Within deps session w) :
    Bounds deps (tolerate deps session detail) w fun ending w' => ending.Within deps w' := by
  unfold tolerate
  dsimp only
  split
  · exact within_bind (finishSession_emits _ _ _) h fun _ _ h => ensures_ret h.kept
  · exact within_bind ⟨fun _ => rfl, fun _ => trivial⟩ h fun _ _ h => ensures_ret h

/-- Every outcome of a call is counted, and the budget is told. -/
theorem noteOutcomes_bounds {session : Session} {outcomes : List IssueOutcome}
    (hlimit : session.taken < issueBudget deps.config)
    (h : (outcomes = [] ∧ Idle session.taken w.1) ∨
      ∃ outcome, outcomes = [outcome] ∧ Owing session.taken w.1) :
    Bounds deps (noteOutcomes session outcomes) w fun session' => Within deps session' := by
  rcases h with ⟨rfl, hidle⟩ | ⟨outcome, rfl, howing⟩
  · exact ensures_ret (.inr ⟨hidle, hlimit.le⟩)
  · have hbounds := howing.bounds
    refine ensures_bind (ensures_call (.inr ⟨hbounds.1.trans hlimit, hbounds.2⟩)
      fun answer w' hstep => ?_)
    exact ensures_ret (ensures_ret (.inr ⟨howing.recorded hstep.1, hlimit⟩))

/-- A call that threw has claimed nothing, or its claim is lost. -/
theorem within_of_threw {session : Session} {skip : Option (List ℕ)} {e : Text} {account : Account}
    {log trace : List RunnerEvent} (h : Idle session.taken account)
    (hlimit : session.taken ≤ issueBudget deps.config)
    (hlog : w.2 = log ++ ⟨.checkBudget, none⟩ :: trace)
    (hrun : Run (runOnce deps skip) trace (.threw e))
    (hsteps : Steps accountStep account trace w.1) : Within deps session w := by
  by_cases hclaim : ∃ event ∈ trace, (claimOf event).isSome = true
  · exact .inl ⟨log, trace, [], skip, e, by simp [hlog], hrun, hclaim⟩
  · refine .inr ⟨?_, hlimit⟩
    clear hrun hlog
    generalize w.1 = account' at hsteps
    induction hsteps with
    | nil account => exact h
    | cons first _ ih =>
      have hnone : ∀ event ∈ _ :: _, claimOf event = none := fun event hevent =>
        Option.not_isSome_iff_eq_none.mp fun hsome => hclaim ⟨event, hevent, hsome⟩
      refine ih (idle_step (hnone _ List.mem_cons_self) h first) ?_
      rintro ⟨event, hevent, hsome⟩
      exact hclaim ⟨event, List.mem_cons_of_mem _ hevent, hsome⟩

theorem takeWork_bounds {session : Session} (hlimit : issueBudget deps.config ≠ 0)
    (h : Within deps session w) :
    Bounds deps (takeWork deps session) w fun ending w' => ending.Within deps w' := by
  rcases h with hlost | ⟨hidle, hle⟩
  · refine (bounds_of_lost hlost _).weaken fun ending w' h => ?_
    cases ending <;> exact .inl h
  · unfold takeWork
    dsimp only
    split
    · exact finish_bounds (.inr ⟨hidle, hle⟩)
    · rename_i hleft
      have hleft : session.taken < issueBudget deps.config := by
        by_contra hfull
        exact hleft ⟨hlimit, Nat.le_of_not_lt hfull⟩
      refine ensures_bind (ensures_call (.inr ⟨hidle.le.trans hle, hidle.sound⟩)
        fun answer w' hstep => ensures_ret ?_)
      obtain ⟨account', log'⟩ := w'
      have hlog : log' = w.2 ++ [⟨.checkBudget, answer⟩] := hstep.2
      subst hlog
      split
      · exact finish_bounds (.inr ⟨idle_step rfl hidle hstep.1, hle⟩)
      · have hchecked : Checked session.taken account' := hidle.checked hstep.1 rfl
        have hcall : Spends (runOnce deps (some session.blockedThisRun)) account' session.taken _ :=
          runOnce_account hchecked
        refine ensures_bind (ensures_attempt ((hcall.noted _).mono ?_ ?_ ?_))
        · rintro result w' ⟨hresult, -⟩
          refine ensures_bind ((noteOutcomes_bounds hleft hresult).weaken fun session' w' h => ?_)
          split
          · exact finish_bounds h
          · exact ensures_ret h
        · rintro e w' ⟨-, trace, hlog, hrun, hsteps⟩
          have hsplit : w'.2 = w.2 ++ ⟨.checkBudget, none⟩ :: trace := by simp [hlog]
          exact tolerate_bounds (within_of_threw hchecked.1 hle hsplit hrun hsteps)
        · intro w' howing
          have hbounds := howing.bounds
          exact .inr ⟨hbounds.1.trans hleft, hbounds.2⟩

omit [Host] [Unicode] in
theorem noteAdvanced_taken (session : Session) (outcomes : List AdvanceOutcome) :
    (outcomes.foldl noteAdvanced session).taken = session.taken := by
  induction outcomes generalizing session with
  | nil => rfl
  | cons outcome outcomes ih =>
    rw [List.foldl_cons, ih]
    unfold noteAdvanced
    dsimp only
    split
    · rfl
    · split
      · rfl
      · split <;> rfl

/-- One turn of the loop. -/
theorem cycle_bounds {session : Session} (hlimit : issueBudget deps.config ≠ 0)
    (h : Within deps session w) :
    Bounds deps (cycle deps session) w fun ending w' => ending.Within deps w' := by
  unfold cycle
  refine within_bind (emits_attempt ((advance_emits deps).mono notClaim_of_moveOp)) h
    fun result w h => ?_
  split
  · exact tolerate_bounds h
  · rename_i advanced
    have hsame : Within deps (advanced.foldl noteAdvanced session) w := by
      unfold Within
      rw [noteAdvanced_taken]
      exact h
    unfold afterAdvance
    refine within_bind ⟨fun _ => rfl, fun _ => trivial⟩ hsame fun journal w h => ?_
    split
    · exact takeWork_bounds hlimit h
    · exact ensures_ret h

/-- However many turns the loop takes. -/
theorem sessionLoop_bounds (hlimit : issueBudget deps.config ≠ 0) (turns : ℕ) :
    ∀ (session : Session) (w : Account × List RunnerEvent), Within deps session w →
      Bounds deps (sessionLoop deps turns session) w fun _ => Kept deps := by
  have hstop : ∀ (session : Session) (w : Account × List RunnerEvent), Within deps session w →
      Bounds deps (finishSession session .interrupted interruptedDetail >>= fun result =>
        .ret (some result)) w fun _ => Kept deps := fun session w h =>
    within_bind (finishSession_emits _ _ _) h fun _ _ h => ensures_ret h.kept
  induction turns with
  | zero => exact fun session w h => ensures_ret h.kept
  | succ turns ih =>
    intro session w h
    unfold sessionLoop
    refine within_bind ⟨fun _ => rfl, fun _ => trivial⟩ h fun stop w h => ?_
    split
    · exact hstop session w h
    · refine ensures_bind ((cycle_bounds hlimit h).weaken fun ending w h => ?_)
      split
      · exact ensures_ret h
      · exact ih _ w h
      · dsimp only
        refine within_bind ⟨fun _ => rfl, fun _ => trivial⟩ h fun stop w h => ?_
        split
        · exact hstop _ w h
        · exact within_bind ⟨fun _ => rfl, fun _ => trivial⟩ h fun _ w h => ih _ w h

/-- **The issues a session claims.**  In every run of a session with a limit, whatever the world
answers and wherever the run is interrupted, the number of distinct issues that receive the label of
a run at work is at most the limit, and none is claimed when the check of the budget, counting every
claim so far, reports a limit, provided that no call of `runOnce` threw after it had claimed an
issue. -/
theorem claims_within (deps : RunnerDeps) (limits : BudgetLimits) (startedAt turns : ℕ)
    (trace : List RunnerEvent) (outcome : Outcome Text (Option UnattendedResult))
    (account : Account)
    (hlimit : issueBudget deps.config ≠ 0) (hrun : Run (runUnattended deps turns) trace outcome)
    (hsteps : Steps accountStep (newAccount limits startedAt) trace account)
    (hkept : ¬ ClaimLost deps trace) :
    (account.claims.map Prod.fst).dedup.length ≤ issueBudget deps.config ∧
      account.overdrawn = false := by
  have hstart : ∀ session : Session, session.taken = 0 →
      Within deps session (newAccount limits startedAt, []) := by
    intro session htaken
    refine .inr ⟨⟨Nat.zero_le _, fun _ _ => Nat.zero_le _, rfl⟩, ?_⟩
    rw [htaken]
    exact Nat.zero_le _
  have hsession : Bounds deps (runUnattended deps turns) (newAccount limits startedAt, [])
      fun _ => Kept deps := by
    unfold runUnattended
    refine within_bind ⟨fun _ => rfl, fun _ => trivial⟩
      (hstart ⟨emptySummary [], [], 0, 0⟩ rfl) fun startedAt w h => ?_
    exact sessionLoop_bounds hlimit turns _ w h
  have hmeets := hsession trace outcome _ hrun (steps_noted hsteps [])
  rw [List.nil_append] at hmeets
  have hend : Kept deps (account, trace) := by
    cases outcome with
    | returned a => exact hmeets
    | threw e => exact hmeets
    | interrupted => exact hmeets
  rcases hend with hlost | ⟨hle, hsound⟩
  · exact absurd hlost hkept
  · refine ⟨?_, hsound⟩
    have hdedup : (account.claims.map Prod.fst).dedup.length ≤
        (account.claims.map Prod.fst).length :=
      (List.dedup_sublist _).length_le
    rw [List.length_map] at hdedup
    exact hdedup.trans hle

end Sessions

/-! ### A claim that is lost -/

/-- The answer, and the account after it, when no time passes. -/
def Account.answered (account : Account) (op : Op) (answer : op.Answer) : op.Answer × Account :=
  (answer, { account.moved account.clock ⟨op, answer⟩ with clock := account.clock })

/-- The world in which a script answers, and the budget for itself. -/
def accounting (script : Account → (op : Op) → Option op.Answer) (account : Account) (op : Op) :
    Option (op.Answer × Account) :=
  match op with
  | .checkBudget => (script account .checkBudget).map fun _ =>
      account.answered .checkBudget (account.budget.check account.clock).1
  | .snapshot => (script account .snapshot).map fun _ =>
      account.answered .snapshot (account.budget.snapshot account.clock).1
  | op => (script account op).map (account.answered op)

theorem accounting_steps (script : Account → (op : Op) → Option op.Answer) (account : Account)
    (op : Op) (answer : op.Answer) (account' : Account)
    (h : accounting script account op = some (answer, account')) :
    accountStep account ⟨op, answer⟩ account' := by
  refine ⟨account.clock, Nat.le_refl _, ?_⟩
  cases op <;>
    obtain ⟨given, -, hmoved⟩ := Option.map_eq_some_iff.mp h <;>
    obtain ⟨rfl, rfl⟩ := Prod.mk.inj hmoved <;>
    exact ⟨by trivial, rfl⟩

def sampleLimits : BudgetLimits := ⟨60, 20, 12⟩

/-- The session in such a world. -/
def accounted (script : Account → (op : Op) → Option op.Answer) (turns : ℕ) :
    List RunnerEvent × Outcome Text (Option UnattendedResult) × Account :=
  play (accounting script) (@runUnattended asciiHost asciiUnicode sampleDeps turns)
    (newAccount sampleLimits 0)

theorem accounted_run (script : Account → (op : Op) → Option op.Answer) (turns : ℕ) :
    Run (@runUnattended asciiHost asciiUnicode sampleDeps turns) (accounted script turns).1
      (accounted script turns).2.1 :=
  run_play _ _ _

theorem accounted_steps (script : Account → (op : Op) → Option op.Answer) (turns : ℕ) :
    Steps accountStep (newAccount sampleLimits 0) (accounted script turns).1
      (accounted script turns).2.2 :=
  steps_play _ id (accounting_steps script) _ _

/-- The runner is cut off when it has claimed the issue. -/
def cutOffAfterClaim : Account → (op : Op) → Option op.Answer := fun _ op =>
  match op with
  | .removeLabel _ _ => none
  | op => some (calm op)

/-- The events of a call up to its claim of issue 1. -/
def claimingOnce : List RunnerEvent :=
  [⟨.readJournal, emptyJournal⟩, ⟨.issues, .ok [sampleIssue 1]⟩, ⟨.createLog 1, .ok ()⟩,
    ⟨.logLine (lit "claim #" ++ decimal 1), .ok ()⟩, ⟨.addLabels 1 [inProgressLabel], .ok ()⟩]

set_option maxRecDepth 4000 in
theorem cutOffAfterClaim_trace : (accounted cutOffAfterClaim 1).1 =
    [⟨.now, lit "now"⟩, ⟨.stopping, false⟩, ⟨.readJournal, emptyJournal⟩,
      ⟨.readJournal, emptyJournal⟩] ++ ⟨.checkBudget, none⟩ :: claimingOnce := by
  rfl

/-- After a claim that succeeded, the work goes on. -/
theorem workIssue_goesOn [Host] [Unicode] {deps : RunnerDeps} {issue : IssueSummary}
    {options : WorkOptions} {number : ℕ} {text : Text} {labels : List Text}
    {outcome : Outcome Text IssueOutcome}
    (h : Run (workIssue deps issue options)
      [⟨.createLog number, .ok ()⟩, ⟨.logLine text, .ok ()⟩, ⟨.addLabels number labels, .ok ()⟩]
      outcome) : outcome = .interrupted := by
  cases h with
  | call _ _ _ _ _ logged =>
    cases logged with
    | call _ _ _ _ _ claimed =>
      cases claimed with
      | call _ _ _ _ _ rest =>
        cases rest with
        | interrupt => rfl

theorem claimingOnce_goesOn (skip : Option (List ℕ)) (e : Text) :
    ¬ Run (@runOnce asciiHost asciiUnicode sampleDeps skip) claimingOnce (.threw e) := by
  intro h
  cases h with
  | call _ _ _ _ _ read =>
    cases read with
    | call _ _ _ _ _ listed =>
      dsimp only [raise, Prog.bind] at listed
      generalize @runnerSelection asciiHost [sampleIssue 1] sampleDeps.selectionPolicy skip =
        selection
        at listed
      obtain ⟨selected, candidates, stopReason⟩ := selection
      cases selected with
      | none => cases listed
      | some issue =>
        rcases run_bind (p := @workIssue asciiHost asciiUnicode sampleDeps issue ⟨0, none⟩)
          listed with
          ⟨outcome, before, after, hsplit, hwork, hdone⟩ | ⟨_, _, hwork⟩ | ⟨hcut, _⟩
        · cases hdone
        · cases @workIssue_goesOn asciiHost asciiUnicode _ _ _ _ _ _ _ hwork
        · cases hcut

/-- The claim is not lost: the call is still under way. -/
theorem cutOffAfterClaim_kept :
    ¬ @ClaimLost asciiHost asciiUnicode sampleDeps (accounted cutOffAfterClaim 1).1 := by
  rintro ⟨before, once, after, skip, e, htrace, hrun, hclaim⟩
  have hearly : ∀ event ∈ ([⟨.now, lit "now"⟩, ⟨.stopping, false⟩, ⟨.readJournal, emptyJournal⟩,
      ⟨.readJournal, emptyJournal⟩] : List RunnerEvent), event.op ≠ .checkBudget := by simp
  have hlate : ∀ event ∈ claimingOnce, event.op ≠ .checkBudget := by simp [claimingOnce]
  rw [cutOffAfterClaim_trace] at htrace
  obtain ⟨-, -, hsplit⟩ := (List.append_cons_inj_of_notMem
    (fun hmem => hearly _ hmem rfl) fun hmem => hlate _ hmem rfl).mp htrace
  rcases after.eq_nil_or_concat with rfl | ⟨later, last, rfl⟩
  · rw [List.append_nil] at hsplit
    exact claimingOnce_goesOn skip e (hsplit ▸ hrun)
  · obtain ⟨event, hevent, hsome⟩ := hclaim
    have hearlier : claimingOnce.dropLast = once ++ later := by
      rw [hsplit, List.concat_eq_append, ← List.append_assoc, List.dropLast_concat]
    have hmem : event ∈ claimingOnce.dropLast := by
      rw [hearlier]
      exact List.mem_append_left _ hevent
    have hnone : ∀ event ∈ claimingOnce.dropLast, (claimOf event).isSome = false := by
      simp [claimingOnce, claimOf]
    rw [hnone event hmem] at hsome
    exact absurd hsome (by simp)

theorem claims_within_sample :
    ((accounted cutOffAfterClaim 1).2.2.claims.map Prod.fst).dedup.length ≤
        issueBudget sampleDeps.config ∧
      (accounted cutOffAfterClaim 1).2.2.overdrawn = false :=
  @claims_within asciiHost asciiUnicode sampleDeps sampleLimits 0 1 _ _ _ (by decide)
    (accounted_run cutOffAfterClaim 1) (accounted_steps cutOffAfterClaim 1) cutOffAfterClaim_kept

/-- GitHub does not answer when issue 1 loses the label that offers it, and lists it accordingly. -/
def halfClaimed : Account → (op : Op) → Option op.Answer := fun account op =>
  match op with
  | .removeLabel number label =>
      if number = 1 ∧ label = readyLabel then some (.error (lit "HTTP 502")) else some (.ok ())
  | .issues =>
      if account.claims = [] then some (.ok [sampleIssue 1, sampleIssue 2])
      else some
        (.ok [{ sampleIssue 1 with labels := [readyLabel, inProgressLabel] }, sampleIssue 2])
  | op => some (calm op)

/-- The limit is one, and two issues are claimed. -/
theorem claimed_twice :
    ∃ trace outcome account,
      Run (@runUnattended asciiHost asciiUnicode sampleDeps 2) trace outcome ∧
      Steps accountStep (newAccount sampleLimits 0) trace account ∧
      issueBudget sampleDeps.config = 1 ∧
      ¬ ((account.claims.map Prod.fst).dedup.length ≤ issueBudget sampleDeps.config ∧
        account.overdrawn = false) :=
  ⟨_, _, _, accounted_run halfClaimed 2, accounted_steps halfClaimed 2, by decide +kernel,
    by decide +kernel⟩

end Newsdeck.Runner

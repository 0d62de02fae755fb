import Newsdeck.Ecma.Schema
import Mathlib.Order.Lattice
import Mathlib.Order.MinMax

/-!
# The loop policy

Risk levels, severities, the policy document with the schema that admits it, and `stepsForRisk`, the
verification steps a risk level demands.

`stepsForRisk` follows `inherits` from tier to tier without remembering the tiers it has visited, so
on a cycle of two or three tiers it recurses until the call stack is gone.  The model gives the
recursion a depth; `none` is the `RangeError`.
-/

namespace Newsdeck.Loop

open Ecma

/-! ### Risk levels and severities -/

inductive RiskLevel where
  | low | medium | high
  deriving DecidableEq, Repr

/-- `RISK_ORDER`. -/
def riskOrder : RiskLevel → ℕ
  | .low => 0
  | .medium => 1
  | .high => 2

theorem riskOrder_injective : Function.Injective riskOrder := by
  intro a b h
  cases a <;> cases b <;> first | rfl | exact absurd h (by decide)

/-- Risk levels ordered as `RISK_ORDER` orders them. -/
instance : LinearOrder RiskLevel := LinearOrder.lift' riskOrder riskOrder_injective

instance : OrderTop RiskLevel where
  top := .high
  le_top a := by cases a <;> decide

instance : OrderBot RiskLevel where
  bot := .low
  bot_le a := by cases a <;> decide

/-- The higher of two risk levels. -/
def maxRisk (a b : RiskLevel) : RiskLevel := if riskOrder a ≥ riskOrder b then a else b

theorem maxRisk_eq_max (a b : RiskLevel) : maxRisk a b = max a b := by
  cases a <;> cases b <;> decide

def isAtLeastRisk (value threshold : RiskLevel) : Bool := riskOrder value ≥ riskOrder threshold

inductive Severity where
  | info | low | medium | high | critical
  deriving DecidableEq, Repr

/-- `SEVERITY_ORDER`. -/
def severityOrder : Severity → ℕ
  | .info => 0
  | .low => 1
  | .medium => 2
  | .high => 3
  | .critical => 4

def isAtLeastSeverity (value threshold : Severity) : Bool :=
  severityOrder value ≥ severityOrder threshold

theorem severityOrder_injective : Function.Injective severityOrder := by
  intro a b h
  cases a <;> cases b <;> first | rfl | exact absurd h (by decide)

/-- How a risk level prints. -/
def riskText : RiskLevel → Text
  | .low => lit "low"
  | .medium => lit "medium"
  | .high => lit "high"

/-- How a severity prints. -/
def severityText : Severity → Text
  | .info => lit "info"
  | .low => lit "low"
  | .medium => lit "medium"
  | .high => lit "high"
  | .critical => lit "critical"

/-! ### The policy document -/

structure PathRule where
  risk : RiskLevel
  reason : Text
  patterns : List Text
  deriving DecidableEq, Repr

/-- A verification step, and the conditions under which it applies. -/
structure TierStep where
  name : Text
  command : Text
  args : List Text
  whenChanged : Option (List Text)
  requires : Option Text
  requiresProbe : Option (List Text)
  timeoutMinutes : ℕ
  deriving DecidableEq, Repr

structure Tier where
  inherits : Option RiskLevel
  steps : List TierStep
  reviewers : ℕ
  deriving DecidableEq, Repr

structure Tiers where
  low : Tier
  medium : Tier
  high : Tier
  deriving DecidableEq, Repr

/-- `policy.tiers[level]`. -/
def Tiers.tier (tiers : Tiers) : RiskLevel → Tier
  | .low => tiers.low
  | .medium => tiers.medium
  | .high => tiers.high

structure Retry where
  maxReviewAttempts : ℕ
  codingFixRounds : ℕ
  reviewFixRounds : ℕ
  ciFixRounds : ℕ
  reviewerRetryRounds : ℕ
  conflictRounds : ℕ
  deriving DecidableEq, Repr

structure Escalations where
  maxChangedFiles : ℕ
  maxDeletedLines : ℕ
  destructiveMigrationGlobs : List Text
  publicContractGlobs : List Text
  deriving DecidableEq, Repr

structure RiskPolicy where
  default : RiskLevel
  paths : List PathRule
  escalations : Escalations
  deriving DecidableEq, Repr

structure ControlPlane where
  patterns : List Text
  policySignals : List Text
  alwaysPolicy : List Text
  deriving DecidableEq, Repr

structure LoopPolicy where
  retry : Retry
  risk : RiskPolicy
  tiers : Tiers
  controlPlane : ControlPlane
  blockingSeverity : Severity
  requiredChecks : List Text
  deriving DecidableEq, Repr

/-! ### The schema -/

/-- `z.string().min(1)`. -/
def nonEmpty : Schema Text := Schema.text fun t => t ≠ []

def riskLevelSchema : Schema RiskLevel :=
  Schema.enum [(lit "low", .low), (lit "medium", .medium), (lit "high", .high)]

def severitySchema : Schema Severity :=
  Schema.enum [(lit "info", .info), (lit "low", .low), (lit "medium", .medium),
    (lit "high", .high), (lit "critical", .critical)]

def pathRuleSchema : Schema PathRule := Schema.object fun field => do
  let risk ← field "risk" riskLevelSchema
  let reason ← field "reason" nonEmpty
  let patterns ← field "patterns" (Schema.minItems 1 (Schema.array nonEmpty))
  some ⟨risk, reason, patterns⟩

def tierStepSchema : Schema TierStep := Schema.object fun field => do
  let name ← field "name" nonEmpty
  let command ← field "command" nonEmpty
  let args ← field "args" (Schema.array (Schema.text fun _ => true))
  let whenChanged ← field "whenChanged" (Schema.optional (Schema.array nonEmpty))
  let requires ← field "requires" (Schema.optional nonEmpty)
  let requiresProbe ← field "requiresProbe"
    (Schema.optional (Schema.minItems 1 (Schema.array nonEmpty)))
  let timeoutMinutes ← field "timeoutMinutes" (Schema.default (Schema.nat 1 180) 20)
  some ⟨name, command, args, whenChanged, requires, requiresProbe, timeoutMinutes⟩

def tierSchema : Schema Tier := Schema.object fun field => do
  let inherits ← field "inherits" (Schema.optional riskLevelSchema)
  let steps ← field "steps" (Schema.array tierStepSchema)
  let reviewers ← field "reviewers" (Schema.nat 1 4)
  some ⟨inherits, steps, reviewers⟩

def tiersSchema : Schema Tiers := Schema.object fun field => do
  let low ← field "low" tierSchema
  let medium ← field "medium" tierSchema
  let high ← field "high" tierSchema
  some ⟨low, medium, high⟩

def retrySchema : Schema Retry := Schema.object fun field => do
  let maxReviewAttempts ← field "maxReviewAttempts" (Schema.nat 1 10)
  let codingFixRounds ← field "codingFixRounds" (Schema.default (Schema.nat 1 10) 3)
  let reviewFixRounds ← field "reviewFixRounds" (Schema.default (Schema.nat 1 10) 3)
  let ciFixRounds ← field "ciFixRounds" (Schema.default (Schema.nat 1 10) 3)
  let reviewerRetryRounds ← field "reviewerRetryRounds" (Schema.default (Schema.nat 1 5) 2)
  let conflictRounds ← field "conflictRounds" (Schema.default (Schema.nat 1 5) 2)
  some ⟨maxReviewAttempts, codingFixRounds, reviewFixRounds, ciFixRounds, reviewerRetryRounds,
    conflictRounds⟩

def escalationsSchema : Schema Escalations := Schema.object fun field => do
  let maxChangedFiles ← field "maxChangedFiles" (Schema.nat 1 Schema.maxSafe)
  let maxDeletedLines ← field "maxDeletedLines" (Schema.nat 1 Schema.maxSafe)
  let destructiveMigrationGlobs ← field "destructiveMigrationGlobs"
    (Schema.array (Schema.text fun _ => true))
  let publicContractGlobs ← field "publicContractGlobs"
    (Schema.array (Schema.text fun _ => true))
  some ⟨maxChangedFiles, maxDeletedLines, destructiveMigrationGlobs, publicContractGlobs⟩

def riskPolicySchema : Schema RiskPolicy := Schema.object fun field => do
  let default ← field "default" riskLevelSchema
  let paths ← field "paths" (Schema.minItems 1 (Schema.array pathRuleSchema))
  let escalations ← field "escalations" escalationsSchema
  some ⟨default, paths, escalations⟩

def controlPlaneSchema : Schema ControlPlane := Schema.object fun field => do
  let patterns ← field "patterns" (Schema.minItems 1 (Schema.array nonEmpty))
  let policySignals ← field "policySignals" (Schema.array nonEmpty)
  let alwaysPolicy ← field "alwaysPolicy" (Schema.array nonEmpty)
  some ⟨patterns, policySignals, alwaysPolicy⟩

/-- The `review` section, of which the blocking severity is the only member. -/
def reviewPolicySchema : Schema Severity := Schema.object fun field =>
  field "blockingSeverity" severitySchema

/-- `LoopPolicySchema`. -/
def loopPolicySchema : Schema LoopPolicy := Schema.object fun field => do
  let retry ← field "retry" retrySchema
  let risk ← field "risk" riskPolicySchema
  let tiers ← field "tiers" tiersSchema
  let controlPlane ← field "controlPlane" controlPlaneSchema
  let blockingSeverity ← field "review" reviewPolicySchema
  let requiredChecks ← field "requiredChecks" (Schema.default (Schema.array nonEmpty) [])
  some ⟨retry, risk, tiers, controlPlane, blockingSeverity, requiredChecks⟩

mutual

/-- Drop every `$comment` member, at any depth. -/
def stripComments : Json → Json
  | .arr vs => .arr (stripCommentsItems vs)
  | .obj ms => .obj (stripCommentsMembers ms)
  | v => v

def stripCommentsItems : List Json → List Json
  | [] => []
  | v :: vs => stripComments v :: stripCommentsItems vs

def stripCommentsMembers : List (Text × Json) → List (Text × Json)
  | [] => []
  | (k, v) :: ms =>
      if k = lit "$comment" then stripCommentsMembers ms
      else (k, stripComments v) :: stripCommentsMembers ms

end

/-- Validate a parsed policy document; `none` is the `PolicyError`. -/
def parsePolicy (raw : Json) : Option LoopPolicy := loopPolicySchema (some (stripComments raw))

/-- What the schema promises about the numbers of a policy. -/
structure LoopPolicy.Bounded (policy : LoopPolicy) : Prop where
  maxReviewAttempts : policy.retry.maxReviewAttempts ≤ 10
  maxChangedFiles : 1 ≤ policy.risk.escalations.maxChangedFiles
  maxDeletedLines : 1 ≤ policy.risk.escalations.maxDeletedLines

theorem retrySchema_bounded {v : Option Json} {retry : Retry} (h : retrySchema v = some retry) :
    retry.maxReviewAttempts ≤ 10 := by
  obtain ⟨members, -, hbuild⟩ := Schema.object_eq_some h
  simp only [Option.bind_eq_bind, Option.bind_eq_some_iff, Option.some.injEq] at hbuild
  obtain ⟨maxReviewAttempts, hmax, _, -, _, -, _, -, _, -, _, -, rfl⟩ := hbuild
  exact (Schema.nat_eq_some hmax).2

theorem escalationsSchema_bounded {v : Option Json} {rules : Escalations}
    (h : escalationsSchema v = some rules) : 1 ≤ rules.maxChangedFiles ∧ 1 ≤ rules.maxDeletedLines := by
  obtain ⟨members, -, hbuild⟩ := Schema.object_eq_some h
  simp only [Option.bind_eq_bind, Option.bind_eq_some_iff, Option.some.injEq] at hbuild
  obtain ⟨_, hfiles, _, hlines, _, -, _, -, rfl⟩ := hbuild
  exact ⟨(Schema.nat_eq_some hfiles).1, (Schema.nat_eq_some hlines).1⟩

theorem riskPolicySchema_bounded {v : Option Json} {risk : RiskPolicy}
    (h : riskPolicySchema v = some risk) :
    1 ≤ risk.escalations.maxChangedFiles ∧ 1 ≤ risk.escalations.maxDeletedLines := by
  obtain ⟨members, -, hbuild⟩ := Schema.object_eq_some h
  simp only [Option.bind_eq_bind, Option.bind_eq_some_iff, Option.some.injEq] at hbuild
  obtain ⟨_, -, _, -, _, hrules, rfl⟩ := hbuild
  exact escalationsSchema_bounded hrules

theorem parsePolicy_bounded {raw : Json} {policy : LoopPolicy} (h : parsePolicy raw = some policy) :
    policy.Bounded := by
  have hschema : loopPolicySchema (some (stripComments raw)) = some policy := h
  obtain ⟨members, -, hbuild⟩ := Schema.object_eq_some hschema
  simp only [Option.bind_eq_bind, Option.bind_eq_some_iff, Option.some.injEq] at hbuild
  obtain ⟨_, hretry, _, hrisk, _, -, _, -, _, -, _, -, rfl⟩ := hbuild
  obtain ⟨hfiles, hlines⟩ := riskPolicySchema_bounded hrisk
  exact ⟨retrySchema_bounded hretry, hfiles, hlines⟩

/-! ### The steps a risk level demands -/

/-- The loop over one tier's own steps: a step whose name was seen is skipped. -/
def addSteps : List TierStep → List TierStep → List TierStep
  | acc, [] => acc
  | acc, step :: rest =>
      if step.name ∈ acc.map TierStep.name then addSteps acc rest
      else addSteps (acc ++ [step]) rest

/-- `collect(level)` with at most `depth` nested calls. -/
def collect (policy : LoopPolicy) : ℕ → RiskLevel → List TierStep → Option (List TierStep)
  | 0, _, _ => none
  | depth + 1, level, acc => do
      let tier := policy.tiers.tier level
      let acc ← match tier.inherits with
        | some parent => if parent ≠ level then collect policy depth parent acc else some acc
        | none => some acc
      some (addSteps acc tier.steps)

/-- Every step for a risk level, inherited tiers first and without duplicates, on a call stack of
`depth` frames. -/
def stepsForRisk (policy : LoopPolicy) (depth : ℕ) (risk : RiskLevel) : Option (List TierStep) :=
  collect policy depth risk []

/-- Independent review passes required at a risk level. -/
def reviewersForRisk (policy : LoopPolicy) (risk : RiskLevel) : ℕ :=
  (policy.tiers.tier risk).reviewers

theorem tierSchema_reviewers {v : Option Json} {tier : Tier} (h : tierSchema v = some tier) :
    1 ≤ tier.reviewers ∧ tier.reviewers ≤ 4 := by
  obtain ⟨members, -, hbuild⟩ := Schema.object_eq_some h
  simp only [Option.bind_eq_bind, Option.bind_eq_some_iff, Option.some.injEq] at hbuild
  obtain ⟨_, -, _, -, reviewers, hreviewers, rfl⟩ := hbuild
  exact Schema.nat_eq_some hreviewers

/-- An accepted policy asks for one to four reviewers at every level. -/
theorem parsePolicy_reviewers {raw : Json} {policy : LoopPolicy} (h : parsePolicy raw = some policy)
    (risk : RiskLevel) : 1 ≤ reviewersForRisk policy risk ∧ reviewersForRisk policy risk ≤ 4 := by
  have hschema : loopPolicySchema (some (stripComments raw)) = some policy := h
  obtain ⟨members, -, hbuild⟩ := Schema.object_eq_some hschema
  simp only [Option.bind_eq_bind, Option.bind_eq_some_iff, Option.some.injEq] at hbuild
  obtain ⟨_, -, _, -, _, htiers, _, -, _, -, _, -, rfl⟩ := hbuild
  obtain ⟨members', -, hbuild'⟩ := Schema.object_eq_some htiers
  simp only [Option.bind_eq_bind, Option.bind_eq_some_iff, Option.some.injEq] at hbuild'
  obtain ⟨low, hlow, medium, hmedium, high, hhigh, rfl⟩ := hbuild'
  cases risk with
  | low => exact tierSchema_reviewers hlow
  | medium => exact tierSchema_reviewers hmedium
  | high => exact tierSchema_reviewers hhigh

end Newsdeck.Loop

import Newsdeck.Loop.ControlPlane
import Newsdeck.Loop.MergeGate
import Mathlib.Logic.Relation

/-!
# What an empty report about a proposed policy means

`findWeakenedProtections` compares a proposed policy with the one in force.  This file says what is
known when it finds nothing (`findWeakenedProtections_nil_iff`) and draws two consequences.

* `approval_transfers` — reviews that approve under the proposed policy's parameters approve under
  the base policy's;
* `steps_kept_iff` — the steps demanded of a risk level are kept, *except* for a tier that a level
  no longer inherits: the report compares the tiers' own lists, the verifier runs the closure of
  `inherits`.
-/

namespace Newsdeck.Loop

open Ecma

/-- What the comparison checks. -/
structure NotWeakened (base head : LoopPolicy) : Prop where
  checks : ∀ check ∈ base.requiredChecks, check ∈ head.requiredChecks
  reviewers : ∀ level, reviewersForRisk base level ≤ reviewersForRisk head level
  steps : ∀ level, ∀ step ∈ (base.tiers.tier level).steps,
    ∃ step' ∈ (head.tiers.tier level).steps, step'.name = step.name
  severity : isAtLeastSeverity base.blockingSeverity head.blockingSeverity = true
  patterns : ∀ rule ∈ base.risk.paths, ∀ pattern ∈ rule.patterns,
    ∃ rule' ∈ head.risk.paths, pattern ∈ rule'.patterns
  codingFixRounds : head.retry.codingFixRounds ≤ base.retry.codingFixRounds * 2
  reviewFixRounds : head.retry.reviewFixRounds ≤ base.retry.reviewFixRounds * 2
  ciFixRounds : head.retry.ciFixRounds ≤ base.retry.ciFixRounds * 2

variable {base head : LoopPolicy}

theorem lostChecks_nil_iff : lostChecks base head = [] ↔
    ∀ check ∈ base.requiredChecks, check ∈ head.requiredChecks := by
  simp [lostChecks]

theorem lostSteps_nil_iff {before after : Tier} : lostSteps before after = [] ↔
    ∀ step ∈ before.steps, ∃ step' ∈ after.steps, step'.name = step.name := by
  simp [lostSteps]

theorem weakenedTier_nil_iff {level : RiskLevel} : weakenedTier base head level = [] ↔
    reviewersForRisk base level ≤ reviewersForRisk head level ∧
      ∀ step ∈ (base.tiers.tier level).steps,
        ∃ step' ∈ (head.tiers.tier level).steps, step'.name = step.name := by
  rw [← lostSteps_nil_iff]
  simp [weakenedTier, reviewersForRisk]

theorem raisedSeverity_nil_iff : raisedSeverity base head = [] ↔
    isAtLeastSeverity base.blockingSeverity head.blockingSeverity = true := by
  unfold raisedSeverity isAtLeastSeverity
  simp only [ite_eq_right_iff, List.cons_ne_nil, imp_false, not_and, decide_eq_true_eq, ge_iff_le,
    not_le]
  constructor
  · intro h
    by_cases heq : head.blockingSeverity = base.blockingSeverity
    · rw [heq]
    · exact (h heq).le
  · intro h hne
    rcases h.lt_or_eq with h | h
    · exact h
    · exact absurd (severityOrder_injective h) hne

theorem lostPatterns_nil_iff : lostPatterns base head = [] ↔
    ∀ rule ∈ base.risk.paths, ∀ pattern ∈ rule.patterns,
      ∃ rule' ∈ head.risk.paths, pattern ∈ rule'.patterns := by
  unfold lostPatterns
  simp only [List.flatMap_eq_nil_iff, List.filterMap_eq_nil_iff]
  refine forall₂_congr fun rule _ => forall₂_congr fun pattern _ => ?_
  constructor
  · intro h
    by_contra hlost
    push Not at hlost
    have hstill : ¬ (head.risk.paths.any fun candidate =>
        candidate.risk = rule.risk && pattern ∈ candidate.patterns) = true := by
      simp only [List.any_eq_true, Bool.and_eq_true, decide_eq_true_eq]
      rintro ⟨rule', hrule', -, hpattern⟩
      exact hlost rule' hrule' hpattern
    have hdown : ¬ (head.risk.paths.any fun candidate =>
        pattern ∈ candidate.patterns && candidate.risk ≠ rule.risk) = true := by
      simp only [List.any_eq_true, Bool.and_eq_true, decide_eq_true_eq]
      rintro ⟨rule', hrule', hpattern, -⟩
      exact hlost rule' hrule' hpattern
    rw [if_pos (by rw [Bool.and_eq_true, Bool.not_eq_true', Bool.not_eq_true',
      Bool.eq_false_iff, Bool.eq_false_iff]; exact ⟨hstill, hdown⟩)] at h
    exact Option.some_ne_none _ h
  · rintro ⟨rule', hrule', hpattern⟩
    refine if_neg ?_
    rw [Bool.and_eq_true, Bool.not_eq_true', Bool.not_eq_true', Bool.eq_false_iff,
      Bool.eq_false_iff]
    simp only [ne_eq, List.any_eq_true, Bool.and_eq_true, decide_eq_true_eq]
    rintro ⟨hstill, hdown⟩
    -- the candidate carries the level of the rule or another one
    by_cases hrisk : rule'.risk = rule.risk
    · exact hstill ⟨rule', hrule', hrisk, hpattern⟩
    · exact hdown ⟨rule', hrule', hpattern, hrisk⟩

theorem raisedRetry_nil_iff {category : Text} {before after : ℕ} :
    raisedRetry category before after = [] ↔ after ≤ before * 2 := by
  simp [raisedRetry]

/-- The diff adds an unsafe construct to a workflow. -/
def UnsafeWorkflow (diff : PullRequestDiff) : Prop :=
  ∃ file ∈ diff.files, matchesAnyGlob [lit ".github/workflows/**"] file.path = true ∧
    ∃ p ∈ unsafeWorkflowPatterns, ∃ line ∈ file.addedLines, p.pattern.test line = true

theorem findUnsafeWorkflowChanges_nil_iff {diff : PullRequestDiff} :
    findUnsafeWorkflowChanges diff = [] ↔ ¬UnsafeWorkflow diff := by
  unfold findUnsafeWorkflowChanges UnsafeWorkflow
  rw [List.flatMap_eq_nil_iff]
  push Not
  refine forall₂_congr fun file _ => ?_
  cases hglob : matchesAnyGlob [lit ".github/workflows/**"] file.path with
  | false => simp
  | true => simp [List.filterMap_eq_nil_iff]

/-- **The empty report.** -/
theorem findWeakenedProtections_nil_iff {diff : PullRequestDiff} :
    findWeakenedProtections ⟨base, head, diff⟩ = [] ↔
      NotWeakened base head ∧ findUnsafeWorkflowChanges diff = [] := by
  unfold findWeakenedProtections
  simp only [List.append_eq_nil_iff, lostChecks_nil_iff, List.flatMap_eq_nil_iff,
    weakenedTier_nil_iff, raisedSeverity_nil_iff, lostPatterns_nil_iff, raisedRetry_nil_iff]
  constructor
  · rintro ⟨⟨⟨⟨⟨⟨⟨hchecks, htiers⟩, hsev⟩, hpat⟩, hcoding⟩, hreview⟩, hci⟩, hunsafe⟩
    have hall : ∀ level : RiskLevel, level ∈ [RiskLevel.low, .medium, .high] := by
      intro level
      cases level <;> decide
    exact ⟨⟨hchecks, fun level => (htiers level (hall level)).1,
      fun level => (htiers level (hall level)).2, hsev, hpat, hcoding, hreview, hci⟩, hunsafe⟩
  · rintro ⟨h, hunsafe⟩
    exact ⟨⟨⟨⟨⟨⟨⟨h.checks, fun level _ => ⟨h.reviewers level, h.steps level⟩⟩, h.severity⟩,
      h.patterns⟩, h.codingFixRounds⟩, h.reviewFixRounds⟩, h.ciFixRounds⟩, hunsafe⟩

/-! ### Sample policies -/

/-- A tier of a sample document: what it inherits and its only step. -/
def sampleTier (inherits : List (Text × Json)) (name : String) : Json :=
  .obj (inherits ++ [
    (lit "steps", .arr [.obj [
      (lit "name", .str (lit name)), (lit "command", .str (lit "pnpm")), (lit "args", .arr [])]]),
    (lit "reviewers", .num 1)])

/-- A small policy document, up to the default risk and to what the high tier inherits. -/
def sampleDocument (default : String) (inherits : List (Text × Json)) : Json :=
  .obj [
    (lit "retry", .obj [(lit "maxReviewAttempts", .num 3)]),
    (lit "risk", .obj [
      (lit "default", .str (lit default)),
      (lit "paths", .arr [.obj [
        (lit "risk", .str (lit "high")), (lit "reason", .str (lit "Deployment.")),
        (lit "patterns", .arr [.str (lit "infra/**")])]]),
      (lit "escalations", .obj [
        (lit "maxChangedFiles", .num 30), (lit "maxDeletedLines", .num 400),
        (lit "destructiveMigrationGlobs", .arr []), (lit "publicContractGlobs", .arr [])])]),
    (lit "tiers", .obj [
      (lit "low", sampleTier [] "Lint"), (lit "medium", sampleTier [] "Unit tests"),
      (lit "high", sampleTier inherits "Browser tests")]),
    (lit "controlPlane", .obj [
      (lit "patterns", .arr [.str (lit ".agent/**")]), (lit "policySignals", .arr []),
      (lit "alwaysPolicy", .arr [])]),
    (lit "review", .obj [(lit "blockingSeverity", .str (lit "medium"))])]

/-- What the document reads as. -/
def samplePolicy (default : RiskLevel) (inherits : Option RiskLevel) : LoopPolicy where
  retry := ⟨3, 3, 3, 3, 2, 2⟩
  risk := ⟨default, [⟨.high, lit "Deployment.", [lit "infra/**"]⟩], ⟨30, 400, [], []⟩⟩
  tiers :=
    { low := ⟨none, [⟨lit "Lint", lit "pnpm", [], none, none, none, 20⟩], 1⟩
      medium := ⟨none, [⟨lit "Unit tests", lit "pnpm", [], none, none, none, 20⟩], 1⟩
      high := ⟨inherits, [⟨lit "Browser tests", lit "pnpm", [], none, none, none, 20⟩], 1⟩ }
  controlPlane := ⟨[lit ".agent/**"], [], []⟩
  blockingSeverity := .medium
  requiredChecks := []

theorem parsePolicy_sampleDocument :
    parsePolicy (sampleDocument "low" []) = some (samplePolicy .low none) ∧
    parsePolicy (sampleDocument "medium" []) = some (samplePolicy .medium none) ∧
    parsePolicy (sampleDocument "low" [(lit "inherits", .str (lit "medium"))]) =
      some (samplePolicy .low (some .medium)) := by
  refine ⟨?_, ?_, ?_⟩ <;> decide +kernel

/-! ### Approval -/

/-- **Approval transfers.**  Nothing is reported about a proposed policy: whatever approves with its
reviewer count and blocking severity approves with the base policy's. -/
theorem approval_transfers [Host] (base head : LoopPolicy) (diff : PullRequestDiff)
    (h : findWeakenedProtections ⟨base, head, diff⟩ = []) (level : RiskLevel)
    (reviews : List ReviewResult)
    (happrove : (aggregateReviews
      ⟨reviews, reviewersForRisk head level, head.blockingSeverity⟩).status = .approve) :
    (aggregateReviews ⟨reviews, reviewersForRisk base level, base.blockingSeverity⟩).status =
      .approve := by
  obtain ⟨hkept, -⟩ := findWeakenedProtections_nil_iff.mp h
  exact aggregate_approve_mono (hkept.reviewers level) hkept.severity happrove

/-- A base policy that blocks on findings of high severity, and one that asks more: a second reviewer
at every level, and blocking findings from medium severity on. -/
def lenientPolicy : LoopPolicy := { samplePolicy .low none with blockingSeverity := .high }

def strictPolicy : LoopPolicy :=
  { samplePolicy .low none with
    tiers :=
      { low := { (samplePolicy .low none).tiers.low with reviewers := 2 }
        medium := { (samplePolicy .low none).tiers.medium with reviewers := 2 }
        high := { (samplePolicy .low none).tiers.high with reviewers := 2 } } }

/-- Two reviews that approve, one with a finding of low severity and one with a remark. -/
def approvingReviews : List ReviewResult :=
  [⟨.approve, [⟨.low, some (lit "src/a.ts"), some 3, lit "Unused name.", lit "Remove it.",
      lit "reviewer", lit "style"⟩], lit "fine"⟩,
    ⟨.approve, [⟨.info, none, none, lit "Long function.", lit "Split it.", lit "reviewer",
      lit "style"⟩], lit "fine too"⟩]

theorem approval_transfers_sample :
    findWeakenedProtections ⟨lenientPolicy, strictPolicy, ⟨[]⟩⟩ = [] ∧
    reviewersForRisk lenientPolicy .high < reviewersForRisk strictPolicy .high ∧
    (@aggregateReviews asciiHost ⟨approvingReviews, reviewersForRisk lenientPolicy .high,
      lenientPolicy.blockingSeverity⟩).status = .approve := by
  have h : findWeakenedProtections ⟨lenientPolicy, strictPolicy, ⟨[]⟩⟩ = [] := by decide +kernel
  have happrove : (@aggregateReviews asciiHost ⟨approvingReviews, reviewersForRisk strictPolicy .high,
      strictPolicy.blockingSeverity⟩).status = .approve := by decide +kernel
  exact ⟨h, by decide, @approval_transfers asciiHost _ _ _ h .high _ happrove⟩

/-! ### The steps of a level -/

/-- The tier a tier inherits; naming itself counts as naming none. -/
def Parent (policy : LoopPolicy) (level parent : RiskLevel) : Prop :=
  (policy.tiers.tier level).inherits = some parent ∧ parent ≠ level

/-- The tiers whose steps a level runs: its own and those above it. -/
def Inherits (policy : LoopPolicy) : RiskLevel → RiskLevel → Prop :=
  Relation.ReflTransGen (Parent policy)

theorem Parent.unique {policy : LoopPolicy} {level parent parent' : RiskLevel}
    (h : Parent policy level parent) (h' : Parent policy level parent') : parent = parent' :=
  Option.some.inj (h.1.symm.trans h'.1)

theorem collect_top {policy : LoopPolicy} {level : RiskLevel} (h : ¬ ∃ parent, Parent policy level parent)
    (depth : ℕ) (acc : List TierStep) :
    collect policy (depth + 1) level acc = some (addSteps acc (policy.tiers.tier level).steps) := by
  rw [collect]
  cases hinherits : (policy.tiers.tier level).inherits with
  | none => simp only [Option.bind_eq_bind, Option.bind_some]
  | some parent =>
    have hself : ¬ parent ≠ level := fun hne => h ⟨parent, hinherits, hne⟩
    simp only [if_neg hself, Option.bind_eq_bind, Option.bind_some]

theorem collect_below {policy : LoopPolicy} {level parent : RiskLevel} (h : Parent policy level parent)
    (depth : ℕ) (acc : List TierStep) :
    collect policy (depth + 1) level acc =
      (collect policy depth parent acc).map fun inherited => addSteps inherited (policy.tiers.tier level).steps := by
  rw [collect, h.1]
  simp only [if_pos h.2]
  cases collect policy depth parent acc <;> rfl

def stepNames (steps : List TierStep) : List Text := steps.map TierStep.name

theorem mem_stepNames_addSteps (steps : List TierStep) :
    ∀ (acc : List TierStep) (name : Text), name ∈ stepNames (addSteps acc steps) ↔
      name ∈ stepNames acc ∨ name ∈ stepNames steps := by
  induction steps with
  | nil => intro acc name; simp [addSteps, stepNames]
  | cons step rest ih =>
    intro acc name
    unfold addSteps
    split
    · rename_i hseen
      rw [ih acc name]
      simp only [stepNames, List.map_cons, List.mem_cons]
      constructor
      · rintro (h | h)
        · exact .inl h
        · exact .inr (.inr h)
      · rintro (h | rfl | h)
        · exact .inl h
        · exact .inl hseen
        · exact .inr h
    · rw [ih (acc ++ [step]) name]
      simp only [stepNames, List.map_append, List.mem_append, List.map_cons, List.map_nil,
        List.mem_cons, List.not_mem_nil, or_false, or_assoc]

/-- **What a level runs.**  When the recursion comes to an end, the names it has collected are those
of the tiers the level inherits. -/
theorem mem_collect_iff (policy : LoopPolicy) (depth : ℕ) :
    ∀ (level : RiskLevel) (acc steps : List TierStep),
      collect policy depth level acc = some steps → ∀ name, name ∈ stepNames steps ↔
        name ∈ stepNames acc ∨
          ∃ tier, Inherits policy level tier ∧ name ∈ stepNames (policy.tiers.tier tier).steps := by
  induction depth with
  | zero => intro level acc steps h; simp [collect] at h
  | succ depth ih =>
    intro level acc steps h name
    by_cases hparent : ∃ parent, Parent policy level parent
    · obtain ⟨parent, hparent⟩ := hparent
      rw [collect_below hparent] at h
      obtain ⟨acc', hacc', rfl⟩ := Option.map_eq_some_iff.mp h
      rw [mem_stepNames_addSteps, ih parent acc acc' hacc' name]
      constructor
      · rintro ((hname | ⟨tier, htier, hname⟩) | hname)
        · exact .inl hname
        · exact .inr ⟨tier, .head hparent htier, hname⟩
        · exact .inr ⟨level, .refl, hname⟩
      · rintro (hname | ⟨tier, htier, hname⟩)
        · exact .inl (.inl hname)
        · rcases Relation.ReflTransGen.cases_head htier with rfl | ⟨parent', hparent', htier'⟩
          · exact .inr hname
          · obtain rfl := hparent.unique hparent'
            exact .inl (.inr ⟨tier, htier', hname⟩)
    · rw [collect_top hparent, Option.some.injEq] at h
      rw [← h, mem_stepNames_addSteps]
      refine or_congr_right ⟨fun hname => ⟨level, .refl, hname⟩, ?_⟩
      rintro ⟨tier, htier, hname⟩
      rcases Relation.ReflTransGen.cases_head htier with rfl | ⟨parent, hup, -⟩
      · exact hname
      · exact absurd ⟨parent, hup⟩ hparent

theorem mem_stepsForRisk_iff {policy : LoopPolicy} {depth : ℕ} {level : RiskLevel}
    {steps : List TierStep} (h : stepsForRisk policy depth level = some steps) (name : Text) :
    name ∈ stepNames steps ↔
      ∃ tier, Inherits policy level tier ∧ name ∈ stepNames (policy.tiers.tier tier).steps := by
  rw [mem_collect_iff policy depth level [] steps h name]
  simp [stepNames]

/-- The recursion comes to an end at every level. -/
def Terminates (policy : LoopPolicy) : Prop :=
  ∀ level, ∃ depth steps, stepsForRisk policy depth level = some steps

/-- Whatever a level runs under the base policy it runs, by name, under the proposed one. -/
def StepsKept (base head : LoopPolicy) : Prop :=
  ∀ level depth depth' steps steps', stepsForRisk base depth level = some steps →
    stepsForRisk head depth' level = some steps' → stepNames steps ⊆ stepNames steps'

/-- Some level no longer inherits a tier, and with it loses a step. -/
def DropsInherited (base head : LoopPolicy) : Prop :=
  ∃ level tier, Inherits base level tier ∧ ¬ Inherits head level tier ∧
    ∃ name ∈ stepNames (base.tiers.tier tier).steps, ∀ tier', Inherits head level tier' →
      name ∉ stepNames (head.tiers.tier tier').steps

/-- **When the steps are kept.**  Nothing is reported about a proposed policy: the steps of every
level are kept exactly when no level drops an inherited tier with a step that none of its remaining
tiers has. -/
theorem steps_kept_iff (rawBase rawHead : Json) (base head : LoopPolicy) (diff : PullRequestDiff)
    (_hbase : parsePolicy rawBase = some base) (_hhead : parsePolicy rawHead = some head)
    (hbaseEnds : Terminates base) (hheadEnds : Terminates head)
    (h : findWeakenedProtections ⟨base, head, diff⟩ = []) :
    StepsKept base head ↔ ¬ DropsInherited base head := by
  obtain ⟨hkept, -⟩ := findWeakenedProtections_nil_iff.mp h
  constructor
  · rintro hsteps ⟨level, tier, hbaseTier, -, name, hname, hlost⟩
    obtain ⟨depth, steps, hs⟩ := hbaseEnds level
    obtain ⟨depth', steps', hs'⟩ := hheadEnds level
    have hmem := hsteps level depth depth' steps steps' hs hs'
      ((mem_stepsForRisk_iff hs name).mpr ⟨tier, hbaseTier, hname⟩)
    obtain ⟨tier', htier', hname'⟩ := (mem_stepsForRisk_iff hs' name).mp hmem
    exact hlost tier' htier' hname'
  · intro hdrop level depth depth' steps steps' hs hs' name hname
    obtain ⟨tier, htier, hname⟩ := (mem_stepsForRisk_iff hs name).mp hname
    rw [mem_stepsForRisk_iff hs' name]
    by_cases hstill : Inherits head level tier
    · obtain ⟨step, hstep, rfl⟩ := List.mem_map.mp hname
      obtain ⟨step', hstep', hnames⟩ := hkept.steps tier step hstep
      exact ⟨tier, hstill, List.mem_map.mpr ⟨step', hstep', hnames⟩⟩
    · by_contra hlost
      push Not at hlost
      exact hdrop ⟨level, tier, htier, hstill, name, hname, hlost⟩

theorem samplePolicy_terminates (default : RiskLevel) : Terminates (samplePolicy default none) ∧
    Terminates (samplePolicy default (some .medium)) := by
  constructor <;> intro level <;> cases level <;> exact ⟨2, _, rfl⟩

/-- The high tier inherits `Unit tests` under the base policy and not under the proposed one; the
report is empty. -/
theorem dropped_inherits_unreported :
    parsePolicy (sampleDocument "low" [(lit "inherits", .str (lit "medium"))]) =
      some (samplePolicy .low (some .medium)) ∧
    parsePolicy (sampleDocument "low" []) = some (samplePolicy .low none) ∧
    Terminates (samplePolicy .low (some .medium)) ∧ Terminates (samplePolicy .low none) ∧
    findWeakenedProtections ⟨samplePolicy .low (some .medium), samplePolicy .low none, ⟨[]⟩⟩ = [] ∧
    ¬ StepsKept (samplePolicy .low (some .medium)) (samplePolicy .low none) := by
  refine ⟨parsePolicy_sampleDocument.2.2, parsePolicy_sampleDocument.1,
    (samplePolicy_terminates .low).2, (samplePolicy_terminates .low).1, by decide +kernel, fun h => ?_⟩
  have hlost := h .high 2 2 _ _ rfl rfl
  exact absurd (hlost (a := lit "Unit tests") (by decide)) (by decide)

theorem steps_kept_sample :
    StepsKept (samplePolicy .low none) (samplePolicy .low (some .medium)) ↔
      ¬ DropsInherited (samplePolicy .low none) (samplePolicy .low (some .medium)) :=
  steps_kept_iff (sampleDocument "low" [])
    (sampleDocument "low" [(lit "inherits", .str (lit "medium"))]) _ _ ⟨[]⟩
    parsePolicy_sampleDocument.1 parsePolicy_sampleDocument.2.2 (samplePolicy_terminates .low).1
    (samplePolicy_terminates .low).2 (by decide +kernel)

end Newsdeck.Loop

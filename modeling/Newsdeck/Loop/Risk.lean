import Newsdeck.Loop.ControlPlane

/-!
# Risk classification

`classifyRisk` starts from the policy's default and only ever moves up: path rules, labels,
escalations and the control plane each contribute a level, with a reason.
-/

namespace Newsdeck.Loop

open Ecma

inductive RiskSource where
  | default | path | label | escalation | controlPlane | basePolicy
  deriving DecidableEq, Repr

structure RiskReason where
  risk : RiskLevel
  source : RiskSource
  detail : Text
  deriving DecidableEq, Repr

/-- What is kept of the control plane assessment. -/
structure ControlPlaneSummary where
  affected : Bool
  policyBearing : Bool
  reasons : List Text
  deriving DecidableEq, Repr

structure RiskAssessment where
  risk : RiskLevel
  reasons : List RiskReason
  controlPlane : ControlPlaneSummary
  deriving DecidableEq, Repr

/-- `RISK_LABEL`. -/
def riskLabel : Regex ℕ :=
  .seq .bol (.cat [.str "risk:", .group 1 (.oneOf [.str "low", .str "medium", .str "high"]), .eol])

/-- The level a label declares. -/
def declaredRisk (label : Text) : Option RiskLevel :=
  (riskLabel.capture 1 label).bind fun name =>
    [(lit "low", RiskLevel.low), (lit "medium", .medium), (lit "high", .high)].lookup name

structure RiskInput where
  diff : PullRequestDiff
  labels : List Text
  policy : LoopPolicy

/-- The files of a diff that a path rule matches. -/
def matchedFiles (diff : PullRequestDiff) (rule : PathRule) : List DiffFile :=
  diff.files.filter fun file => matchesAnyGlob rule.patterns file.path

/-- The reasons the path rules give. -/
def pathReasons (diff : PullRequestDiff) (policy : LoopPolicy) : List RiskReason :=
  policy.risk.paths.filterMap fun rule =>
    let matched := matchedFiles diff rule
    match matched with
    | [] => none
    | first :: _ => some ⟨rule.risk, .path, rule.reason ++ lit " (" ++ decimal matched.length ++
        lit " file(s), e.g. " ++ first.path ++ lit ")"⟩

/-- The reasons the labels give. -/
def labelReasons (labels : List Text) : List RiskReason :=
  labels.filterMap fun label => (declaredRisk label).map fun declared =>
    ⟨declared, .label, lit "label `" ++ label ++ lit "`"⟩

/-- A high-risk escalation. -/
def escalation (detail : Text) : RiskReason := ⟨.high, .escalation, detail⟩

/-- Destructive migrations. -/
def migrationEscalation (rules : Escalations) (file : DiffFile) : Option RiskReason :=
  if !matchesAnyGlob rules.destructiveMigrationGlobs file.path then none
  else (findDestructiveSql file.addedLines).head?.map fun statement =>
    escalation (lit "destructive migration in " ++ file.path ++ lit ": " ++ statement.line)

/-- Breaking changes of the public interface. -/
def contractEscalation (rules : Escalations) (file : DiffFile) : Option RiskReason :=
  if !matchesAnyGlob rules.publicContractGlobs file.path then none
  else
    let removed := removedExports file
    if removed.length > 0 then
      some (escalation (lit "breaking public API change: " ++ file.path ++
        lit " no longer exports " ++ join (lit ", ") removed))
    else none

/-- Major upgrades. -/
def dependencyEscalation (change : DependencyChange) : Option RiskReason :=
  if change.major && change.kind = .upgraded then
    some (escalation (lit "major dependency upgrade: " ++ change.name ++ lit " " ++
      change.fromRange.getD (lit "null") ++ lit " -> " ++ change.toRange.getD (lit "null")))
  else none

def escalations [Host] (diff : PullRequestDiff) (policy : LoopPolicy) : List RiskReason :=
  let rules := policy.risk.escalations
  (if diff.files.length > rules.maxChangedFiles then
    [escalation (decimal diff.files.length ++ lit " files changed, over the " ++
      decimal rules.maxChangedFiles ++ lit " file limit (large-scale restructuring)")] else []) ++
  (if deletions diff > rules.maxDeletedLines then
    [escalation (decimal (deletions diff) ++ lit " lines deleted, over the " ++
      decimal rules.maxDeletedLines ++ lit " line limit (large-scale deletion)")] else []) ++
  diff.files.filterMap (migrationEscalation rules) ++
  diff.files.filterMap (contractEscalation rules) ++
  diff.files.flatMap fun file => (dependencyChanges file).filterMap dependencyEscalation

/-- Classify a pull request's risk; `none` when a policy signal is not a regular expression. -/
def classifyRisk [Host] (input : RiskInput) : Option RiskAssessment :=
  (assessControlPlane input.diff input.policy).map fun controlPlane =>
    let found := pathReasons input.diff input.policy ++ labelReasons input.labels ++
      escalations input.diff input.policy
    let risk := found.foldl (fun risk reason => maxRisk risk reason.risk) input.policy.risk.default
    let reasons := ⟨input.policy.risk.default, .default, lit "policy default"⟩ :: found
    { risk := if controlPlane.affected then maxRisk risk .high else risk
      reasons :=
        if controlPlane.affected then
          reasons ++ controlPlane.reasons.map fun reason => ⟨.high, .controlPlane, reason⟩
        else reasons
      controlPlane :=
        ⟨controlPlane.affected, controlPlane.policyBearing, controlPlane.reasons⟩ }

/-! ### What the risk is -/

/-- What one file changes is an escalation. -/
def Escalates [Host] (policy : LoopPolicy) (file : DiffFile) : Prop :=
  (matchesAnyGlob policy.risk.escalations.destructiveMigrationGlobs file.path = true ∧
      findDestructiveSql file.addedLines ≠ []) ∨
    (matchesAnyGlob policy.risk.escalations.publicContractGlobs file.path = true ∧
      removedExports file ≠ []) ∨
    ∃ change ∈ dependencyChanges file, change.major = true ∧ change.kind = .upgraded

/-- The file alone makes a change high risk, whatever the path rules say. -/
def Sensitive [Host] (policy : LoopPolicy) (signals : List CompiledRegExp) (file : DiffFile) : Prop :=
  InControlPlane policy signals file ∨ Escalates policy file

/-- The file brings a change to a level at least. -/
def Reaches [Host] (policy : LoopPolicy) (signals : List CompiledRegExp) (file : DiffFile)
    (level : RiskLevel) : Prop :=
  Sensitive policy signals file ∨
    ∃ rule ∈ policy.risk.paths, matchesAnyGlob rule.patterns file.path = true ∧ level ≤ rule.risk

theorem le_foldl_maxRisk_iff (level : RiskLevel) (found : List RiskReason) :
    ∀ init : RiskLevel, level ≤ found.foldl (fun risk reason => maxRisk risk reason.risk) init ↔
      level ≤ init ∨ ∃ reason ∈ found, level ≤ reason.risk := by
  induction found with
  | nil => simp
  | cons reason found ih =>
    intro init
    rw [List.foldl_cons, ih, maxRisk_eq_max, le_max_iff]
    simp only [List.mem_cons, exists_eq_or_imp, or_assoc]

theorem le_pathReasons_iff {diff : PullRequestDiff} {policy : LoopPolicy} {level : RiskLevel} :
    (∃ reason ∈ pathReasons diff policy, level ≤ reason.risk) ↔
      ∃ file ∈ diff.files, ∃ rule ∈ policy.risk.paths,
        matchesAnyGlob rule.patterns file.path = true ∧ level ≤ rule.risk := by
  have hrule : ∀ rule : PathRule, (∃ file ∈ diff.files,
      matchesAnyGlob rule.patterns file.path = true) ↔ matchedFiles diff rule ≠ [] := by
    intro rule
    simp [matchedFiles, List.filter_eq_nil_iff]
  constructor
  · rintro ⟨reason, hreason, hle⟩
    obtain ⟨rule, hmem, hsome⟩ := List.mem_filterMap.mp hreason
    cases hmatched : matchedFiles diff rule with
    | nil => simp [hmatched] at hsome
    | cons first rest =>
      simp only [hmatched, Option.some.injEq] at hsome
      subst hsome
      obtain ⟨file, hfile, hglob⟩ := (hrule rule).mpr (by simp [hmatched])
      exact ⟨file, hfile, rule, hmem, hglob, hle⟩
  · rintro ⟨file, hfile, rule, hmem, hglob, hle⟩
    cases hmatched : matchedFiles diff rule with
    | nil => exact absurd hmatched ((hrule rule).mp ⟨file, hfile, hglob⟩)
    | cons first rest =>
      refine ⟨⟨rule.risk, .path, rule.reason ++ lit " (" ++ decimal (matchedFiles diff rule).length ++
        lit " file(s), e.g. " ++ first.path ++ lit ")"⟩, List.mem_filterMap.mpr ⟨rule, hmem, ?_⟩, hle⟩
      simp only [hmatched]

theorem le_labelReasons_iff {labels : List Text} {level : RiskLevel} :
    (∃ reason ∈ labelReasons labels, level ≤ reason.risk) ↔
      ∃ label ∈ labels, ∃ declared, declaredRisk label = some declared ∧ level ≤ declared := by
  simp only [labelReasons, List.mem_filterMap, Option.map_eq_some_iff]
  constructor
  · rintro ⟨_, ⟨label, hlabel, declared, hdeclared, rfl⟩, hle⟩
    exact ⟨label, hlabel, declared, hdeclared, hle⟩
  · rintro ⟨label, hlabel, declared, hdeclared, hle⟩
    exact ⟨_, ⟨label, hlabel, declared, hdeclared, rfl⟩, hle⟩

theorem migrationEscalation_isSome_iff {rules : Escalations} {file : DiffFile} :
    (∃ reason, migrationEscalation rules file = some reason) ↔
      matchesAnyGlob rules.destructiveMigrationGlobs file.path = true ∧
        findDestructiveSql file.addedLines ≠ [] := by
  unfold migrationEscalation
  by_cases hglob : matchesAnyGlob rules.destructiveMigrationGlobs file.path = true
  · cases findDestructiveSql file.addedLines <;> simp [hglob]
  · simp [hglob]

theorem contractEscalation_isSome_iff {rules : Escalations} {file : DiffFile} :
    (∃ reason, contractEscalation rules file = some reason) ↔
      matchesAnyGlob rules.publicContractGlobs file.path = true ∧ removedExports file ≠ [] := by
  unfold contractEscalation
  by_cases hglob : matchesAnyGlob rules.publicContractGlobs file.path = true
  · cases removedExports file <;> simp [hglob]
  · simp [hglob]

theorem dependencyEscalation_isSome_iff {change : DependencyChange} :
    (∃ reason, dependencyEscalation change = some reason) ↔
      change.major = true ∧ change.kind = .upgraded := by
  unfold dependencyEscalation
  by_cases h : change.major = true ∧ change.kind = .upgraded <;> simp [h]

/-- Every escalation is high risk. -/
theorem risk_of_mem_escalations [Host] {diff : PullRequestDiff} {policy : LoopPolicy}
    {reason : RiskReason} (h : reason ∈ escalations diff policy) : reason.risk = .high := by
  unfold escalations migrationEscalation contractEscalation dependencyEscalation escalation at h
  simp only [List.mem_append, List.mem_filterMap, List.mem_flatMap] at h
  rcases h with (((h | h) | ⟨file, -, h⟩) | ⟨file, -, h⟩) | ⟨file, -, change, -, h⟩
  · split at h <;> simp_all
  · split at h <;> simp_all
  · split at h
    · exact absurd h (by simp)
    · obtain ⟨_, -, rfl⟩ := Option.map_eq_some_iff.mp h
      rfl
  · split at h
    · exact absurd h (by simp)
    · split at h
      · exact (Option.some.inj h) ▸ rfl
      · exact absurd h (by simp)
  · split at h
    · exact (Option.some.inj h) ▸ rfl
    · exact absurd h (by simp)

theorem exists_escalation_iff [Host] {diff : PullRequestDiff} {policy : LoopPolicy} :
    (∃ reason, reason ∈ escalations diff policy) ↔
      policy.risk.escalations.maxChangedFiles < diff.files.length ∨
      policy.risk.escalations.maxDeletedLines < deletions diff ∨
      ∃ file ∈ diff.files, Escalates policy file := by
  unfold escalations Escalates
  simp only [List.mem_append, List.mem_filterMap, List.mem_flatMap, exists_or, or_assoc]
  have hif : ∀ (p : Prop) [Decidable p] (reason : RiskReason),
      (∃ r, r ∈ if p then [reason] else []) ↔ p := by
    intro p _ reason
    by_cases hp : p <;> simp [hp]
  rw [hif, hif]
  refine or_congr Iff.rfl (or_congr Iff.rfl ?_)
  constructor
  · rintro (⟨reason, file, hfile, h⟩ | ⟨reason, file, hfile, h⟩ | ⟨reason, file, hfile, change, hchange, h⟩)
    · exact ⟨file, hfile, .inl (migrationEscalation_isSome_iff.mp ⟨reason, h⟩)⟩
    · exact ⟨file, hfile, .inr (.inl (contractEscalation_isSome_iff.mp ⟨reason, h⟩))⟩
    · exact ⟨file, hfile, .inr (.inr ⟨change, hchange, dependencyEscalation_isSome_iff.mp ⟨reason, h⟩⟩)⟩
  · rintro ⟨file, hfile, h | h | ⟨change, hchange, h⟩⟩
    · obtain ⟨reason, h⟩ := migrationEscalation_isSome_iff.mpr h
      exact .inl ⟨reason, file, hfile, h⟩
    · obtain ⟨reason, h⟩ := contractEscalation_isSome_iff.mpr h
      exact .inr (.inl ⟨reason, file, hfile, h⟩)
    · obtain ⟨reason, h⟩ := dependencyEscalation_isSome_iff.mpr h
      exact .inr (.inr ⟨reason, file, hfile, change, hchange, h⟩)

theorem exists_reaches_iff [Host] {policy : LoopPolicy} {signals : List CompiledRegExp}
    {files : List DiffFile} {level : RiskLevel} :
    (∃ file ∈ files, Reaches policy signals file level) ↔
      (∃ file ∈ files, InControlPlane policy signals file) ∨
      (∃ file ∈ files, Escalates policy file) ∨
      ∃ file ∈ files, ∃ rule ∈ policy.risk.paths,
        matchesAnyGlob rule.patterns file.path = true ∧ level ≤ rule.risk := by
  simp only [Reaches, Sensitive, and_or_left, exists_or, or_assoc]

/-- The level the reasons found in a change bring it to. -/
theorem le_foldl_found_iff [Host] {policy : LoopPolicy} {diff : PullRequestDiff}
    {labels : List Text} {level : RiskLevel} :
    level ≤ (pathReasons diff policy ++ labelReasons labels ++ escalations diff policy).foldl
        (fun risk reason => maxRisk risk reason.risk) policy.risk.default ↔
      level ≤ policy.risk.default ∨
      ((∃ file ∈ diff.files, ∃ rule ∈ policy.risk.paths,
          matchesAnyGlob rule.patterns file.path = true ∧ level ≤ rule.risk) ∨
        ∃ label ∈ labels, ∃ declared, declaredRisk label = some declared ∧ level ≤ declared) ∨
      policy.risk.escalations.maxChangedFiles < diff.files.length ∨
      policy.risk.escalations.maxDeletedLines < deletions diff ∨
      ∃ file ∈ diff.files, Escalates policy file := by
  have hescalations : (∃ reason ∈ escalations diff policy, level ≤ reason.risk) ↔
      ∃ reason, reason ∈ escalations diff policy := by
    constructor
    · rintro ⟨reason, hreason, -⟩
      exact ⟨reason, hreason⟩
    · rintro ⟨reason, hreason⟩
      exact ⟨reason, hreason, risk_of_mem_escalations hreason ▸ le_top⟩
  rw [le_foldl_maxRisk_iff]
  simp only [List.mem_append, or_and_right, exists_or]
  rw [hescalations, exists_escalation_iff, le_pathReasons_iff, le_labelReasons_iff]

/-- **What raises the risk.**  A level is reached exactly when the default, a label, the size of the
change or one of its files reaches it. -/
theorem classifyRisk_spec [Host] {policy : LoopPolicy} {signals : List CompiledRegExp}
    (hsignals : compileSignals policy.controlPlane.policySignals = some signals)
    (diff : PullRequestDiff) (labels : List Text) :
    ∃ assessment, classifyRisk ⟨diff, labels, policy⟩ = some assessment ∧
      ∀ level, level ≤ assessment.risk ↔ level ≤ policy.risk.default ∨
        (∃ label ∈ labels, ∃ declared, declaredRisk label = some declared ∧ level ≤ declared) ∨
        policy.risk.escalations.maxChangedFiles < diff.files.length ∨
        policy.risk.escalations.maxDeletedLines < deletions diff ∨
        ∃ file ∈ diff.files, Reaches policy signals file level := by
  obtain ⟨controlPlane, hassess, haffected⟩ := assessControlPlane_spec hsignals diff
  refine ⟨_, by rw [classifyRisk, hassess]; rfl, fun level => ?_⟩
  have hhigh : level ≤ RiskLevel.high := le_top
  have hraise : ∀ risk : RiskLevel, level ≤ (if controlPlane.affected then maxRisk risk .high
      else risk) ↔ (∃ file ∈ diff.files, InControlPlane policy signals file) ∨ level ≤ risk := by
    intro risk
    rw [← haffected]
    cases controlPlane.affected
    · simp
    · simp [maxRisk_eq_max, hhigh]
  refine (hraise _).trans ?_
  rw [le_foldl_found_iff, exists_reaches_iff]
  constructor
  · rintro (h | h | (h | h) | h | h | h) <;> simp only [h, true_or, or_true]
  · rintro (h | h | h | h | h | h | h) <;> simp only [h, true_or, or_true]

structure MonotonicRiskInput where
  diff : PullRequestDiff
  labels : List Text
  basePolicy : LoopPolicy
  headPolicy : Option LoopPolicy

/-- Classify risk so that a pull request cannot lower its own. -/
def classifyRiskMonotonic [Host] (input : MonotonicRiskInput) : Option RiskAssessment := do
  let base ← classifyRisk ⟨input.diff, input.labels, input.basePolicy⟩
  match input.headPolicy with
  | none => some base
  | some headPolicy =>
      let head ← classifyRisk ⟨input.diff, input.labels, headPolicy⟩
      let risk := stricterRisk base.risk head.risk
      let note : RiskReason :=
        ⟨risk, .basePolicy,
          if risk = base.risk then
            lit "the proposed policy would call this `" ++ riskText head.risk ++
              lit "`; the base branch's policy governs, so it stays `" ++ riskText base.risk ++
              lit "`"
          else lit "the proposed policy raises this to `" ++ riskText head.risk ++ lit "`"⟩
      some
        { risk := risk
          reasons := if head.risk ≠ base.risk then base.reasons ++ [note] else base.reasons
          controlPlane :=
            ⟨base.controlPlane.affected || head.controlPlane.affected,
              base.controlPlane.policyBearing || head.controlPlane.policyBearing,
              base.controlPlane.reasons⟩ }

end Newsdeck.Loop

import Mathlib.Algebra.Order.BigOperators.Group.List
import Mathlib.Data.List.Perm.Subperm
import Newsdeck.Loop.Protections
import Newsdeck.Loop.Risk

/-!
# How the risk moves with the change

* `classifyRisk_greatest` — the risk is the greatest among those of its reasons;
* `classifyRisk_mono` — adding files or labels, in any place, never lowers it;
* `classifyRisk_perm` — their order does not matter;
* `classifyRiskMonotonic_risk` — under two policies the risk is the greater of the two;
* `risk_moves_up` — all of it, with the policies on which the two classifications throw.
-/

namespace Newsdeck.Loop

open Ecma

/-- The levels the reasons give. -/
def levels (reasons : List RiskReason) : Set RiskLevel :=
  {level | ∃ reason ∈ reasons, reason.risk = level}

/-! ### The reasons -/

theorem isGreatest_foldl_maxRisk (found : List RiskReason) :
    ∀ first : RiskReason, IsGreatest (levels (first :: found))
      (found.foldl (fun risk reason => maxRisk risk reason.risk) first.risk) := by
  induction found with
  | nil =>
    intro first
    refine ⟨⟨first, by simp, rfl⟩, ?_⟩
    rintro _ ⟨reason, hreason, rfl⟩
    rw [List.mem_singleton.mp hreason]
    exact le_refl _
  | cons next found ih =>
    intro first
    -- The two first reasons count as one at the greater of their levels.
    obtain ⟨⟨reason, hreason, hrisk⟩, hupper⟩ := ih { first with risk := maxRisk first.risk next.risk }
    have hmax : maxRisk first.risk next.risk = max first.risk next.risk := maxRisk_eq_max _ _
    constructor
    · rcases List.mem_cons.mp hreason with rfl | hmem
      · have hrisk : maxRisk first.risk next.risk = _ := hrisk
        rcases max_choice first.risk next.risk with hfirst | hnext
        · exact ⟨first, by simp, (hmax.trans hfirst).symm.trans hrisk⟩
        · exact ⟨next, by simp, (hmax.trans hnext).symm.trans hrisk⟩
      · exact ⟨reason, by simp [hmem], hrisk⟩
    · rintro _ ⟨reason, hreason, rfl⟩
      have hjoined : max first.risk next.risk ≤
          (next :: found).foldl (fun risk reason => maxRisk risk reason.risk) first.risk := by
        rw [← hmax]
        exact hupper ⟨_, List.mem_cons_self, rfl⟩
      rcases List.mem_cons.mp hreason with rfl | hreason
      · exact (le_max_left _ _).trans hjoined
      · rcases List.mem_cons.mp hreason with rfl | hmem
        · exact (le_max_right _ _).trans hjoined
        · exact hupper ⟨reason, by simp [hmem], rfl⟩

/-- Every file of the control plane gives a reason. -/
theorem length_assessFile_reasons {policy : LoopPolicy} {signals : List CompiledRegExp}
    {acc : ControlPlaneAssessment} {file : DiffFile} (h : acc.reasons.length = acc.files.length) :
    (assessFile policy signals acc file).reasons.length =
      (assessFile policy signals acc file).files.length := by
  unfold assessFile
  cases matchesAnyGlob policy.controlPlane.patterns file.path <;>
    cases matchesAnyGlob policy.controlPlane.alwaysPolicy file.path <;>
    cases changedLinesCarryPolicy file signals <;> simp [h]

theorem length_assessed_reasons {policy : LoopPolicy} {signals : List CompiledRegExp}
    (files : List DiffFile) : ∀ acc : ControlPlaneAssessment,
      acc.reasons.length = acc.files.length →
      (files.foldl (assessFile policy signals) acc).reasons.length =
        (files.foldl (assessFile policy signals) acc).files.length := by
  induction files with
  | nil => exact fun _ h => h
  | cons file files ih => exact fun acc h => ih _ (length_assessFile_reasons h)

theorem reasons_ne_nil_of_affected [Host] {diff : PullRequestDiff} {policy : LoopPolicy}
    {assessment : ControlPlaneAssessment} (h : assessControlPlane diff policy = some assessment)
    (haffected : assessment.affected = true) : assessment.reasons ≠ [] := by
  obtain ⟨signals, -, rfl⟩ := Option.map_eq_some_iff.mp h
  have hlength := @length_assessed_reasons policy signals diff.files ⟨false, false, [], []⟩ rfl
  have hfiles : (diff.files.foldl (assessFile policy signals) ⟨false, false, [], []⟩).files.length
      > 0 := by simpa using haffected
  rw [← List.length_pos_iff]
  show 0 < (diff.files.foldl (assessFile policy signals) ⟨false, false, [], []⟩).reasons.length
  omega

theorem classifyRisk_greatest [Host] {input : RiskInput} {assessment : RiskAssessment}
    (h : classifyRisk input = some assessment) :
    IsGreatest (levels assessment.reasons) assessment.risk := by
  obtain ⟨controlPlane, hassess, rfl⟩ := Option.map_eq_some_iff.mp h
  dsimp only
  generalize hfound : pathReasons input.diff input.policy ++ labelReasons input.labels ++
    escalations input.diff input.policy = found
  obtain ⟨⟨reason, hreason, hrisk⟩, hupper⟩ := isGreatest_foldl_maxRisk found
    ⟨input.policy.risk.default, .default, lit "policy default"⟩
  cases haffected : controlPlane.affected with
  | false => exact ⟨⟨reason, by simpa using hreason, hrisk⟩, by simpa using hupper⟩
  | true =>
    simp only [if_true, maxRisk_eq_max]
    have htop : ∀ level : RiskLevel, max level .high = .high := fun level => max_eq_right le_top
    rw [htop]
    constructor
    · obtain ⟨text, htext⟩ := List.exists_mem_of_ne_nil _
        (reasons_ne_nil_of_affected hassess haffected)
      exact ⟨⟨.high, .controlPlane, text⟩, by simp [htext], rfl⟩
    · exact fun level _ => le_top

/-! ### Extensions of the change -/

/-- Whether it throws depends on the policy only. -/
theorem classifyRisk_isSome_iff [Host] (input : RiskInput) :
    (classifyRisk input).isSome ↔
      (compileSignals input.policy.controlPlane.policySignals).isSome := by
  simp [classifyRisk, assessControlPlane]

theorem deletions_le {small big : PullRequestDiff} (h : small.files.Subperm big.files) :
    deletions small ≤ deletions big := by
  obtain ⟨files, hperm, hsub⟩ := h
  have hsame : (files.map fun file => file.removedLines.length).sum = deletions small :=
    (hperm.map _).sum_eq
  rw [← hsame]
  exact (hsub.map _).sum_le_sum fun _ _ => Nat.zero_le _

theorem classifyRisk_mono [Host] {policy : LoopPolicy} {small big : PullRequestDiff}
    {labels more : List Text} {assessment : RiskAssessment} (hfiles : small.files.Subperm big.files)
    (hlabels : labels.Subperm more)
    (h : classifyRisk ⟨small, labels, policy⟩ = some assessment) :
    ∃ after, classifyRisk ⟨big, more, policy⟩ = some after ∧ assessment.risk ≤ after.risk := by
  have hcompiles : (compileSignals policy.controlPlane.policySignals).isSome :=
    (classifyRisk_isSome_iff ⟨small, labels, policy⟩).mp (by simp [h])
  obtain ⟨signals, hsignals⟩ := Option.isSome_iff_exists.mp hcompiles
  obtain ⟨found, hfound, hspec⟩ := classifyRisk_spec hsignals small labels
  obtain ⟨after, hafter, hspec'⟩ := classifyRisk_spec hsignals big more
  obtain rfl : found = assessment := Option.some.inj (hfound.symm.trans h)
  refine ⟨after, hafter, (hspec' found.risk).mpr ?_⟩
  rcases (hspec found.risk).mp (le_refl _) with hdefault | ⟨label, hlabel, hdeclared⟩ | hcount |
    hdeleted | ⟨file, hfile, hreaches⟩
  · exact .inl hdefault
  · exact .inr (.inl ⟨label, hlabels.subset hlabel, hdeclared⟩)
  · exact .inr (.inr (.inl (hcount.trans_le hfiles.length_le)))
  · exact .inr (.inr (.inr (.inl (hdeleted.trans_le (deletions_le hfiles)))))
  · exact .inr (.inr (.inr (.inr ⟨file, hfiles.subset hfile, hreaches⟩)))

theorem classifyRisk_perm [Host] {policy : LoopPolicy} {diff other : PullRequestDiff}
    {labels others : List Text} {assessment : RiskAssessment} (hfiles : diff.files.Perm other.files)
    (hlabels : labels.Perm others)
    (h : classifyRisk ⟨diff, labels, policy⟩ = some assessment) :
    ∃ after, classifyRisk ⟨other, others, policy⟩ = some after ∧ after.risk = assessment.risk := by
  obtain ⟨after, hafter, hle⟩ := classifyRisk_mono hfiles.subperm hlabels.subperm h
  obtain ⟨again, hagain, hge⟩ := classifyRisk_mono hfiles.symm.subperm hlabels.symm.subperm hafter
  obtain rfl : again = assessment := Option.some.inj (hagain.symm.trans h)
  exact ⟨after, hafter, hge.antisymm hle⟩

/-! ### Two policies -/

theorem stricterRisk_eq_max (base proposed : RiskLevel) :
    stricterRisk base proposed = max base proposed :=
  maxRisk_eq_max base proposed

/-- The risk under both policies, when there are two. -/
theorem classifyRiskMonotonic_risk [Host] (diff : PullRequestDiff) (labels : List Text)
    (policy proposed : LoopPolicy) :
    (classifyRiskMonotonic ⟨diff, labels, policy, some proposed⟩).map RiskAssessment.risk =
      (classifyRisk ⟨diff, labels, policy⟩).bind fun base =>
        (classifyRisk ⟨diff, labels, proposed⟩).map fun head => max base.risk head.risk := by
  unfold classifyRiskMonotonic
  dsimp only
  cases classifyRisk ⟨diff, labels, policy⟩ with
  | none => rfl
  | some base =>
    cases classifyRisk ⟨diff, labels, proposed⟩ with
    | none => rfl
    | some head => exact congrArg some (stricterRisk_eq_max base.risk head.risk)

theorem classifyRiskMonotonic_isSome_iff [Host] (diff : PullRequestDiff) (labels : List Text)
    (policy proposed : LoopPolicy) :
    (classifyRiskMonotonic ⟨diff, labels, policy, some proposed⟩).isSome ↔
      (compileSignals policy.controlPlane.policySignals).isSome ∧
        (compileSignals proposed.controlPlane.policySignals).isSome := by
  have hbase := classifyRisk_isSome_iff ⟨diff, labels, policy⟩
  have hhead := classifyRisk_isSome_iff ⟨diff, labels, proposed⟩
  rw [← hbase, ← hhead, ← Option.isSome_map (f := RiskAssessment.risk), classifyRiskMonotonic_risk]
  cases classifyRisk ⟨diff, labels, policy⟩ <;> cases classifyRisk ⟨diff, labels, proposed⟩ <;> simp

/-- **The risk of a change.**  It is found whatever the diff and the labels, provided that the policy
signals are regular expressions; it is the greatest among those of its reasons; more files or more
labels never lower it, and their order does not matter.  Under a base policy and a proposed one it is
found provided that the signals of both are regular expressions, and is the greater of the two. -/
theorem risk_moves_up [Host] (policy : LoopPolicy) (diff : PullRequestDiff) (labels : List Text) :
    ((classifyRisk ⟨diff, labels, policy⟩).isSome ↔
      (compileSignals policy.controlPlane.policySignals).isSome) ∧
    (∀ assessment, classifyRisk ⟨diff, labels, policy⟩ = some assessment →
      IsGreatest (levels assessment.reasons) assessment.risk ∧
      (∀ other others, diff.files.Subperm other.files → labels.Subperm others →
        ∃ after, classifyRisk ⟨other, others, policy⟩ = some after ∧
          assessment.risk ≤ after.risk) ∧
      ∀ other others, diff.files.Perm other.files → labels.Perm others →
        ∃ after, classifyRisk ⟨other, others, policy⟩ = some after ∧
          after.risk = assessment.risk) ∧
    ∀ proposed,
      ((classifyRiskMonotonic ⟨diff, labels, policy, some proposed⟩).isSome ↔
        (compileSignals policy.controlPlane.policySignals).isSome ∧
          (compileSignals proposed.controlPlane.policySignals).isSome) ∧
      ∀ assessment, classifyRiskMonotonic ⟨diff, labels, policy, some proposed⟩ = some assessment →
        ∃ base head, classifyRisk ⟨diff, labels, policy⟩ = some base ∧
          classifyRisk ⟨diff, labels, proposed⟩ = some head ∧
          assessment.risk = max base.risk head.risk ∧ base.risk ≤ assessment.risk := by
  refine ⟨classifyRisk_isSome_iff _, fun assessment h => ⟨classifyRisk_greatest h, ?_, ?_⟩,
    fun proposed => ⟨classifyRiskMonotonic_isSome_iff _ _ _ _, fun assessment h => ?_⟩⟩
  · exact fun other others hfiles hlabels => classifyRisk_mono hfiles hlabels h
  · exact fun other others hfiles hlabels => classifyRisk_perm hfiles hlabels h
  · have hrisk := classifyRiskMonotonic_risk diff labels policy proposed
    rw [h, Option.map_some, eq_comm, Option.bind_eq_some_iff] at hrisk
    obtain ⟨base, hbase, hhead⟩ := hrisk
    obtain ⟨head, hhead, hmax⟩ := Option.map_eq_some_iff.mp hhead
    exact ⟨base, head, hbase, hhead, hmax.symm, hmax ▸ le_max_left _ _⟩

/-- A proposal that raises the default risk: the risk of a labelled change is raised with it. -/
theorem risk_moves_up_proposed :
    ∃ assessment, @classifyRiskMonotonic asciiHost
        ⟨⟨[]⟩, [lit "risk:low"], samplePolicy .low none, some (samplePolicy .medium none)⟩ =
          some assessment ∧ assessment.risk = .medium := by
  obtain ⟨-, -, hproposed⟩ := @risk_moves_up asciiHost (samplePolicy .low none) ⟨[]⟩ [lit "risk:low"]
  obtain ⟨hreturns, hmax⟩ := hproposed (samplePolicy .medium none)
  obtain ⟨assessment, h⟩ := Option.isSome_iff_exists.mp (hreturns.mpr ⟨rfl, rfl⟩)
  obtain ⟨base, head, hbase, hhead, hrisk, -⟩ := hmax assessment h
  refine ⟨assessment, h, ?_⟩
  obtain rfl : _ = base := Option.some.inj hbase
  obtain rfl : _ = head := Option.some.inj hhead
  rw [hrisk]
  decide +kernel

/-- The sample policy with these policy signals, as a document and as it is read. -/
def signalDocument (signals : List Text) : Json :=
  match sampleDocument "low" [] with
  | .obj members => .obj (members.map fun member =>
      if member.1 = lit "controlPlane" then
        (member.1, .obj [
          (lit "patterns", .arr [.str (lit ".agent/**")]),
          (lit "policySignals", .arr (signals.map .str)), (lit "alwaysPolicy", .arr [])])
      else member)
  | document => document

def signalPolicy (signals : List Text) : LoopPolicy :=
  { samplePolicy .low none with controlPlane := ⟨[lit ".agent/**"], signals, []⟩ }

/-- A proposal whose signal is an open bracket is a valid policy, and the classification throws on
it. -/
theorem risk_not_found_for_proposal :
    parsePolicy (sampleDocument "low" []) = some (samplePolicy .low none) ∧
    parsePolicy (signalDocument [lit "("]) = some (signalPolicy [lit "("]) ∧
    (@classifyRisk asciiHost ⟨⟨[]⟩, [], samplePolicy .low none⟩).isSome ∧
    @classifyRiskMonotonic asciiHost
      ⟨⟨[]⟩, [], samplePolicy .low none, some (signalPolicy [lit "("])⟩ = none := by
  refine ⟨parsePolicy_sampleDocument.1, ?_, ?_, ?_⟩ <;> decide +kernel

end Newsdeck.Loop

import Newsdeck.Loop.Protections
import Newsdeck.Loop.Risk

/-!
# Risk under two policies

`findWeakenedProtections` looks at the required checks, the tiers, the blocking severity, the risk
patterns and the retry limits.  It does not look at the default risk, at the escalation settings or
at the control plane, and a pattern that is kept at a lower level passes.  `risk_kept_iff` says for
which pairs of policies the classification cannot fall all the same.

* one direction walks through what can bring a change to a level (`classifyRisk_spec`);
* the other classifies four kinds of diff: the empty one, one file, many copies of one file without
  removed lines, and one file that removes one line many times.
-/

namespace Newsdeck.Loop

open Ecma

/-- The file or the default brings a change to the level. -/
def Meets [Host] (policy : LoopPolicy) (signals : List CompiledRegExp) (file : DiffFile)
    (level : RiskLevel) : Prop :=
  level ≤ policy.risk.default ∨ Reaches policy signals file level

/-- Setting by setting, what keeps the proposed policy from classifying lower than the base.  A file
with more removed lines than the proposed limit is high risk in any case. -/
structure RiskKept [Host] (base head : LoopPolicy) (baseSignals headSignals : List CompiledRegExp) :
    Prop where
  default : base.risk.default ≤ head.risk.default
  paths : ∀ file : DiffFile, file.removedLines.length ≤ head.risk.escalations.maxDeletedLines →
    ∀ rule ∈ base.risk.paths, matchesAnyGlob rule.patterns file.path = true →
      Meets head headSignals file rule.risk
  sensitive : ∀ file : DiffFile, file.removedLines.length ≤ head.risk.escalations.maxDeletedLines →
    Sensitive base baseSignals file → Meets head headSignals file .high
  changedFiles : head.risk.escalations.maxChangedFiles ≤ base.risk.escalations.maxChangedFiles ∨
    ∀ file : DiffFile, Meets head headSignals file .high
  deletedLines : head.risk.escalations.maxDeletedLines ≤ base.risk.escalations.maxDeletedLines ∨
    ∀ file : DiffFile, file.removedLines ≠ [] → Meets head headSignals file .high

/-- Whatever the base policy classifies, the proposed one classifies at least as high. -/
def RiskNotLowered [Host] (base head : LoopPolicy) : Prop :=
  ∀ diff labels assessment, classifyRisk ⟨diff, labels, base⟩ = some assessment →
    ∃ assessment', classifyRisk ⟨diff, labels, head⟩ = some assessment' ∧
      assessment.risk ≤ assessment'.risk

/-! ### The sizes of a diff -/

theorem deletions_singleton (file : DiffFile) : deletions ⟨[file]⟩ = file.removedLines.length := by
  simp [deletions]

theorem removedLines_length_le_deletions {diff : PullRequestDiff} {file : DiffFile}
    (h : file ∈ diff.files) : file.removedLines.length ≤ deletions diff := by
  obtain ⟨before, after, hfiles⟩ := List.append_of_mem h
  rw [deletions, hfiles, List.map_append, List.map_cons, List.sum_append, List.sum_cons]
  omega

theorem deletions_replicate {file : DiffFile} (h : file.removedLines = []) (n : ℕ) :
    deletions ⟨List.replicate n file⟩ = 0 := by
  simp [deletions, h]

theorem exists_removedLines_ne_nil {diff : PullRequestDiff} (h : 0 < deletions diff) :
    ∃ file ∈ diff.files, file.removedLines ≠ [] := by
  obtain ⟨length, hlength, hpos⟩ := List.sum_pos_iff_exists_pos_nat.mp h
  obtain ⟨file, hfile, rfl⟩ := List.mem_map.mp hlength
  exact ⟨file, hfile, List.length_pos_iff.mp hpos⟩

/-! ### Files that remove less -/

/-- The same file with other removed lines. -/
def DiffFile.removing (file : DiffFile) (lines : List Text) : DiffFile :=
  { file with removedLines := lines }

theorem mem_extractExportedNames {lines : List Text} {name : Text} :
    name ∈ extractExportedNames lines ↔ ∃ line ∈ lines, name ∈ lineExports line := by
  simp [extractExportedNames, List.mem_eraseDups]

theorem mem_removedExports {file : DiffFile} {name : Text} : name ∈ removedExports file ↔
    name ∈ extractExportedNames file.removedLines ∧ name ∉ extractExportedNames file.addedLines := by
  simp [removedExports, List.mem_mergeSort]

theorem removedExports_ne_nil_iff {file : DiffFile} : removedExports file ≠ [] ↔
    ∃ name ∈ extractExportedNames file.removedLines,
      name ∉ extractExportedNames file.addedLines := by
  rw [← List.isEmpty_eq_false_iff, List.isEmpty_eq_false_iff_exists_mem]
  exact exists_congr fun name => mem_removedExports

theorem dependencyChange_upgraded_iff {before : OrderedMap Text Text} {name toRange : Text}
    {change : DependencyChange} (h : dependencyChange before name toRange = some change)
    (hup : change.major = true ∧ change.kind = .upgraded) :
    ∃ fromRange, before.get? name = some fromRange := by
  unfold dependencyChange at h
  dsimp only at h
  cases hfrom : before.get? name with
  | none =>
    simp only [hfrom, reduceCtorEq, if_false, if_true, Option.some.injEq] at h
    rw [← h] at hup
    exact DependencyKind.noConfusion hup.2
  | some fromRange => exact ⟨fromRange, rfl⟩

/-- A major upgrade is told from the two ranges alone. -/
theorem dependencyChange_congr {before before' : OrderedMap Text Text} {name toRange : Text}
    (h : before.get? name = before'.get? name) :
    dependencyChange before name toRange = dependencyChange before' name toRange := by
  unfold dependencyChange
  rw [h]

theorem upgrade_mem_iff [Host] {file : DiffFile} {change : DependencyChange}
    (hkind : change.kind = .upgraded) : change ∈ dependencyChanges file ↔
      (lit "package.json").isSuffixOf file.path = true ∧
      ∃ entry ∈ dependencyEntries file.addedLines,
        dependencyChange (dependencyEntries file.removedLines) entry.1 entry.2 = some change := by
  unfold dependencyChanges
  by_cases hpath : (lit "package.json").isSuffixOf file.path = true
  · simp only [hpath, Bool.not_true, Bool.false_eq_true, if_false, true_and, List.mem_mergeSort,
      List.mem_append, List.mem_filterMap]
    refine or_iff_left ?_
    rintro ⟨entry, -, hremoval⟩
    split at hremoval
    · cases hremoval
    · rw [← Option.some.inj hremoval] at hkind
      cases hkind
  · simp [hpath]

theorem exists_upgrade_iff [Host] {file : DiffFile} :
    (∃ change ∈ dependencyChanges file, change.major = true ∧ change.kind = .upgraded) ↔
      (lit "package.json").isSuffixOf file.path = true ∧
      ∃ entry ∈ dependencyEntries file.addedLines, ∃ change,
        dependencyChange (dependencyEntries file.removedLines) entry.1 entry.2 = some change ∧
        change.major = true ∧ change.kind = .upgraded := by
  constructor
  · rintro ⟨change, hmem, hmajor, hkind⟩
    obtain ⟨hpath, entry, hentry, hchange⟩ := (upgrade_mem_iff hkind).mp hmem
    exact ⟨hpath, entry, hentry, change, hchange, hmajor, hkind⟩
  · rintro ⟨hpath, entry, hentry, change, hchange, hmajor, hkind⟩
    exact ⟨change, (upgrade_mem_iff hkind).mpr ⟨hpath, entry, hentry, hchange⟩, hmajor, hkind⟩

/-- A file that removes fewer lines, and names no other dependency range in them, is no more
sensitive. -/
theorem Sensitive.of_removing [Host] {policy : LoopPolicy} {signals : List CompiledRegExp}
    {file : DiffFile} {lines : List Text} (hsub : lines ⊆ file.removedLines)
    (hentries : ∀ name range, (dependencyEntries lines).get? name = some range →
      (dependencyEntries file.removedLines).get? name = some range)
    (h : Sensitive policy signals (file.removing lines)) : Sensitive policy signals file := by
  rcases h with (h | h | ⟨line, hline, htest⟩) | (h | ⟨hglob, hremoved⟩ | hup)
  · exact .inl (.inl h)
  · exact .inl (.inr (.inl h))
  · refine .inl (.inr (.inr ⟨line, ?_, htest⟩))
    rw [List.mem_append] at hline ⊢
    exact hline.imp_right fun hl => hsub hl
  · exact .inr (.inl h)
  · refine .inr (.inr (.inl ⟨hglob, ?_⟩))
    rw [removedExports_ne_nil_iff] at hremoved ⊢
    obtain ⟨name, hname, hnot⟩ := hremoved
    obtain ⟨line, hline, hexport⟩ := mem_extractExportedNames.mp hname
    exact ⟨name, mem_extractExportedNames.mpr ⟨line, hsub hline, hexport⟩, hnot⟩
  · refine .inr (.inr (.inr ?_))
    rw [exists_upgrade_iff] at hup ⊢
    obtain ⟨hpath, entry, hentry, change, hchange, hup⟩ := hup
    obtain ⟨fromRange, hfrom⟩ := dependencyChange_upgraded_iff hchange hup
    refine ⟨hpath, entry, hentry, change, ?_, hup⟩
    rw [← hchange]
    exact dependencyChange_congr ((hentries _ _ hfrom).trans hfrom.symm)

theorem Meets.of_removing [Host] {policy : LoopPolicy} {signals : List CompiledRegExp}
    {file : DiffFile} {lines : List Text} {level : RiskLevel} (hsub : lines ⊆ file.removedLines)
    (hentries : ∀ name range, (dependencyEntries lines).get? name = some range →
      (dependencyEntries file.removedLines).get? name = some range)
    (h : Meets policy signals (file.removing lines) level) : Meets policy signals file level :=
  h.imp_right fun hreaches => hreaches.imp_left (Sensitive.of_removing hsub hentries)

theorem dependencyEntries_concat (lines : List Text) (line : Text) :
    dependencyEntries (lines ++ [line]) = addEntry (dependencyEntries lines) line := by
  rw [dependencyEntries, List.foldl_append]
  rfl

/-- What a line enters stands, whatever was there before. -/
theorem get?_addEntry {entries entries' : OrderedMap Text Text} {line name range : Text}
    (h : (addEntry entries line).get? name = some range) (hold : entries.get? name = some range →
      (addEntry entries' line).get? name = some range) :
    (addEntry entries' line).get? name = some range := by
  unfold addEntry at h
  split at h
  · split at h
    · rename_i hname hvalue htest
      rw [OrderedMap.get?_set] at h
      split at h
      · rename_i hkey
        simp only [addEntry, hname, hvalue, htest, if_true, OrderedMap.get?_set, hkey]
        exact h
      · exact hold h
    · exact hold h
  · exact hold h

/-- Removing its last line many times names no range that the file does not name. -/
theorem get?_dependencyEntries_replicate (lines : List Text) (line name range : Text) (n : ℕ)
    (h : (dependencyEntries (List.replicate n line)).get? name = some range) :
    (dependencyEntries (lines ++ [line])).get? name = some range := by
  rw [dependencyEntries_concat]
  induction n with
  | zero => exact absurd h (by simp [dependencyEntries])
  | succ n ih =>
    rw [List.replicate_succ', dependencyEntries_concat] at h
    exact get?_addEntry h ih

/-! ### Both directions -/

section

variable [Host] {base head : LoopPolicy} {baseSignals headSignals : List CompiledRegExp}

theorem RiskKept.riskNotLowered (hkept : RiskKept base head baseSignals headSignals)
    (hbase : compileSignals base.controlPlane.policySignals = some baseSignals)
    (hhead : compileSignals head.controlPlane.policySignals = some headSignals) :
    RiskNotLowered base head := by
  intro diff labels assessment hassess
  obtain ⟨before, hbefore, hlevels⟩ := classifyRisk_spec hbase diff labels
  obtain rfl : before = assessment := Option.some.inj (hbefore.symm.trans hassess)
  obtain ⟨after, hafter, hlevels'⟩ := classifyRisk_spec hhead diff labels
  refine ⟨after, hafter, ?_⟩
  rw [hlevels' before.risk]
  have hmeets : ∀ file ∈ diff.files, ∀ level, Meets head headSignals file level →
      level ≤ head.risk.default ∨ ∃ file ∈ diff.files, Reaches head headSignals file level :=
    fun file hfile level h => h.imp_right fun hreaches => ⟨file, hfile, hreaches⟩
  have hhigh : ∀ file ∈ diff.files, Meets head headSignals file .high →
      before.risk ≤ head.risk.default ∨
        ∃ file ∈ diff.files, Reaches head headSignals file before.risk := by
    intro file hfile h
    have hle : before.risk ≤ RiskLevel.high := le_top
    rcases h with h | h | ⟨rule, hrule, hglob, hrisk⟩
    · exact .inl (hle.trans h)
    · exact .inr ⟨file, hfile, .inl h⟩
    · exact .inr ⟨file, hfile, .inr ⟨rule, hrule, hglob, hle.trans hrisk⟩⟩
  have hsize : ∀ file ∈ diff.files,
      ¬ file.removedLines.length ≤ head.risk.escalations.maxDeletedLines →
      head.risk.escalations.maxDeletedLines < deletions diff := by
    intro file hfile hlen
    have := removedLines_length_le_deletions hfile
    omega
  rcases (hlevels before.risk).mp le_rfl with h | h | h | h | ⟨file, hfile, h⟩
  · exact .inl (h.trans hkept.default)
  · exact .inr (.inl h)
  · rcases hkept.changedFiles with hlimit | hall
    · exact .inr (.inr (.inl (by omega)))
    · obtain ⟨file, hfile⟩ : ∃ file, file ∈ diff.files :=
        List.exists_mem_of_length_pos (by omega)
      rcases hhigh file hfile (hall file) with h | h
      · exact .inl h
      · exact .inr (.inr (.inr (.inr h)))
  · rcases hkept.deletedLines with hlimit | hall
    · exact .inr (.inr (.inr (.inl (by omega))))
    · have hpos : 0 < deletions diff := by omega
      obtain ⟨file, hfile, hlines⟩ := exists_removedLines_ne_nil hpos
      rcases hhigh file hfile (hall file hlines) with h | h
      · exact .inl h
      · exact .inr (.inr (.inr (.inr h)))
  · by_cases hlen : file.removedLines.length ≤ head.risk.escalations.maxDeletedLines
    · have hcases : before.risk ≤ head.risk.default ∨
          ∃ file ∈ diff.files, Reaches head headSignals file before.risk := by
        rcases h with h | ⟨rule, hrule, hglob, hrisk⟩
        · exact hhigh file hfile (hkept.sensitive file hlen h)
        · rcases hmeets file hfile _ (hkept.paths file hlen rule hrule hglob) with h |
            ⟨file', hfile', h | ⟨rule', hrule', hglob', hrisk'⟩⟩
          · exact .inl (hrisk.trans h)
          · exact .inr ⟨file', hfile', .inl h⟩
          · exact .inr ⟨file', hfile', .inr ⟨rule', hrule', hglob', hrisk.trans hrisk'⟩⟩
      rcases hcases with h | h
      · exact .inl h
      · exact .inr (.inr (.inr (.inr h)))
    · exact .inr (.inr (.inr (.inl (hsize file hfile hlen))))

/-- What a diff without labels is classified as under the proposed policy is bounded below. -/
theorem RiskNotLowered.le_or (hrisk : RiskNotLowered base head)
    (hbase : compileSignals base.controlPlane.policySignals = some baseSignals)
    (hhead : compileSignals head.controlPlane.policySignals = some headSignals)
    (diff : PullRequestDiff) (level : RiskLevel)
    (hlevel : level ≤ base.risk.default ∨
      base.risk.escalations.maxChangedFiles < diff.files.length ∨
      base.risk.escalations.maxDeletedLines < deletions diff ∨
      ∃ file ∈ diff.files, Reaches base baseSignals file level) :
    level ≤ head.risk.default ∨
      head.risk.escalations.maxChangedFiles < diff.files.length ∨
      head.risk.escalations.maxDeletedLines < deletions diff ∨
      ∃ file ∈ diff.files, Reaches head headSignals file level := by
  obtain ⟨before, hbefore, hlevels⟩ := classifyRisk_spec hbase diff []
  obtain ⟨after, hafter, hlevels'⟩ := classifyRisk_spec hhead diff []
  obtain ⟨after', hafter', hle⟩ := hrisk diff [] before hbefore
  obtain rfl : after = after' := Option.some.inj (hafter.symm.trans hafter')
  simp only [List.not_mem_nil, false_and, exists_false, false_or] at hlevels hlevels'
  exact (hlevels' level).mp (((hlevels level).mpr hlevel).trans hle)

theorem RiskNotLowered.riskKept (hrisk : RiskNotLowered base head)
    (hbase : compileSignals base.controlPlane.policySignals = some baseSignals)
    (hhead : compileSignals head.controlPlane.policySignals = some headSignals)
    (hbounded : head.Bounded) : RiskKept base head baseSignals headSignals := by
  have hfiles := hbounded.maxChangedFiles
  -- one file that neither limit of the proposed policy escalates
  have hsingle : ∀ file : DiffFile,
      file.removedLines.length ≤ head.risk.escalations.maxDeletedLines → ∀ level,
      Reaches base baseSignals file level → Meets head headSignals file level := by
    intro file hlen level hreaches
    have h := hrisk.le_or hbase hhead ⟨[file]⟩ level
      (.inr (.inr (.inr ⟨file, List.mem_singleton_self file, hreaches⟩)))
    rw [deletions_singleton, List.length_singleton] at h
    rcases h with h | h | h | ⟨file', hfile', h⟩
    · exact .inl h
    · omega
    · omega
    · exact .inr (List.mem_singleton.mp hfile' ▸ h)
  refine ⟨?_, ?_, fun file hlen h => hsingle file hlen .high (.inl h), ?_, ?_⟩
  · rcases hrisk.le_or hbase hhead ⟨[]⟩ base.risk.default (.inl le_rfl) with h | h | h | ⟨file, hfile, -⟩
    · exact h
    · exact absurd h (by simp)
    · exact absurd h (by simp [deletions])
    · exact absurd hfile (by simp)
  · intro file hlen rule hrule hglob
    exact hsingle file hlen rule.risk (.inr ⟨rule, hrule, hglob, le_rfl⟩)
  · by_contra hnot
    push Not at hnot
    obtain ⟨hlimit, file, hfile⟩ := hnot
    -- one file more than the base policy allows, none of them removing a line
    let diff : PullRequestDiff :=
      ⟨List.replicate (base.risk.escalations.maxChangedFiles + 1) (file.removing [])⟩
    have hlength : diff.files.length = base.risk.escalations.maxChangedFiles + 1 :=
      List.length_replicate
    have hdeletions : deletions diff = 0 := deletions_replicate rfl _
    rcases hrisk.le_or hbase hhead diff .high (.inr (.inl (by omega))) with h | h | h | ⟨file', hfile', h⟩
    · exact hfile (.inl h)
    · omega
    · omega
    · obtain rfl : file' = file.removing [] := List.eq_of_mem_replicate hfile'
      exact hfile (Meets.of_removing (List.nil_subset _) (by simp [dependencyEntries]) (.inr h))
  · by_contra hnot
    push Not at hnot
    obtain ⟨hlimit, file, hlines, hfile⟩ := hnot
    obtain ⟨lines, line, hlast⟩ : ∃ lines line, file.removedLines = lines ++ [line] :=
      ⟨_, _, (List.dropLast_append_getLast hlines).symm⟩
    -- one file that removes its last line once more than the base policy allows
    let removed := List.replicate (base.risk.escalations.maxDeletedLines + 1) line
    have hdeletions : deletions ⟨[file.removing removed]⟩ =
        base.risk.escalations.maxDeletedLines + 1 :=
      (deletions_singleton _).trans List.length_replicate
    rcases hrisk.le_or hbase hhead ⟨[file.removing removed]⟩ .high (.inr (.inr (.inl (by omega))))
      with h | h | h | ⟨file', hfile', h⟩
    · exact hfile (.inl h)
    · rw [List.length_singleton] at h
      omega
    · omega
    · obtain rfl : file' = file.removing removed := List.mem_singleton.mp hfile'
      refine hfile (Meets.of_removing ?_ ?_ (.inr h))
      · intro l hl
        rw [hlast, List.eq_of_mem_replicate hl]
        exact List.mem_append_right _ (List.mem_singleton_self line)
      · intro name range hget
        rw [hlast]
        exact get?_dependencyEntries_replicate lines line name range _ hget

end

/-- The base policy cannot classify at all, or the proposed one can and keeps every level. -/
def ClassificationKept [Host] (base head : LoopPolicy) : Prop :=
  compileSignals base.controlPlane.policySignals = none ∨
    ∃ baseSignals headSignals,
      compileSignals base.controlPlane.policySignals = some baseSignals ∧
      compileSignals head.controlPlane.policySignals = some headSignals ∧
      RiskKept base head baseSignals headSignals

/-- **When an empty report keeps the risk.**  Whatever diff the two policies were compared on: no
change is classified lower where the report is empty exactly when the settings the report does not
compare keep every level, unless one that it does compare is weaker, or the diff adds an unsafe
construct to a workflow. -/
theorem risk_kept_iff [Host] (rawBase rawHead : Json) (base head : LoopPolicy)
    (diff : PullRequestDiff) (_hbase : parsePolicy rawBase = some base)
    (hhead : parsePolicy rawHead = some head) :
    (findWeakenedProtections ⟨base, head, diff⟩ = [] → RiskNotLowered base head) ↔
      (NotWeakened base head → ¬UnsafeWorkflow diff → ClassificationKept base head) := by
  rw [findWeakenedProtections_nil_iff, findUnsafeWorkflowChanges_nil_iff, and_imp]
  refine imp_congr_right fun _ => imp_congr_right fun _ => ⟨fun h => ?_, ?_⟩
  · cases hbaseSignals : compileSignals base.controlPlane.policySignals with
    | none => exact .inl hbaseSignals
    | some baseSignals =>
      obtain ⟨before, hbefore, -⟩ := classifyRisk_spec hbaseSignals ⟨[]⟩ []
      obtain ⟨after, hafter, -⟩ := h ⟨[]⟩ [] before hbefore
      cases hheadSignals : compileSignals head.controlPlane.policySignals with
      | none =>
        rw [classifyRisk, assessControlPlane, hheadSignals] at hafter
        exact absurd hafter (by simp)
      | some headSignals =>
        exact .inr ⟨baseSignals, headSignals, hbaseSignals, hheadSignals,
          h.riskKept hbaseSignals hheadSignals (parsePolicy_bounded hhead)⟩
  · rintro (hnone | ⟨baseSignals, headSignals, hbaseSignals, hheadSignals, hkept⟩)
    · intro diff labels assessment hassess
      rw [classifyRisk, assessControlPlane, hnone] at hassess
      exact absurd hassess (by simp)
    · exact hkept.riskNotLowered hbaseSignals hheadSignals

/-- The proposed policy lowers the default from `medium` to `low`; the report is empty. -/
theorem lowered_default_unreported :
    parsePolicy (sampleDocument "medium" []) = some (samplePolicy .medium none) ∧
    parsePolicy (sampleDocument "low" []) = some (samplePolicy .low none) ∧
    findWeakenedProtections ⟨samplePolicy .medium none, samplePolicy .low none, ⟨[]⟩⟩ = [] ∧
    ¬ @RiskNotLowered asciiHost (samplePolicy .medium none) (samplePolicy .low none) := by
  refine ⟨parsePolicy_sampleDocument.2.1, parsePolicy_sampleDocument.1, by decide +kernel, fun h => ?_⟩
  obtain ⟨after, hafter, hle⟩ := h ⟨[]⟩ [] _ rfl
  obtain rfl : _ = after := Option.some.inj hafter
  exact absurd hle (by decide)

/-- Two policies of which the second is nowhere weaker: the report is empty, and no risk is lowered. -/
theorem risk_kept_sample :
    (findWeakenedProtections ⟨samplePolicy .low none, samplePolicy .medium none, ⟨[]⟩⟩ = [] →
      @RiskNotLowered asciiHost (samplePolicy .low none) (samplePolicy .medium none)) ↔
    (NotWeakened (samplePolicy .low none) (samplePolicy .medium none) → ¬UnsafeWorkflow ⟨[]⟩ →
      @ClassificationKept asciiHost (samplePolicy .low none) (samplePolicy .medium none)) :=
  @risk_kept_iff asciiHost (sampleDocument "low" []) (sampleDocument "medium" []) _ _ ⟨[]⟩
    parsePolicy_sampleDocument.1 parsePolicy_sampleDocument.2.1

end Newsdeck.Loop

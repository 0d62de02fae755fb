import Newsdeck.Loop.Checks
import Newsdeck.Loop.DiffReading
import Newsdeck.Loop.Risk
import Mathlib.Algebra.Order.BigOperators.Group.List
import Mathlib.Data.List.Dedup
import Mathlib.Data.List.Perm.Subperm

/-!
# Which paths the rules get to see

Every rule of the loop that looks at a path looks at `file.path` of a parsed file.  A change touches
one path, or two when it is a rename; `touched_visible_iff` says for which sets of changes all of
them are seen, and that the path rules, the control plane and the test check then do their work.

A path that is lost could still turn up as what some other header is misread as.  It cannot, and the
argument is by counting: every change puts one path in front of the rules at most (`seenAs`), so
when all touched paths are seen there is no rename and no quoted path, and what is read is a
permutation of what was touched; a header that is misread yields a longer path, and a permutation
keeps the sum of the lengths.
-/

namespace Newsdeck.Loop

open Ecma Git

/-! ### Every touched path is seen -/

/-- A test file, for the check that watches over them. -/
def IsTest (path : Text) : Prop := isCodeFile path = true ∧ matchesAnyGlob testGlobs path = true

/-- The diff raises the finding that the test file at `path` was deleted. -/
def RaisesDeletion (diff : PullRequestDiff) (path : Text) : Prop :=
  deletedTestFinding ⟨path, .removed, [], []⟩ ∈ checkTestIntegrity diff

/-- The change takes the test file at `path` out of the tests: it deletes it or moves it away. -/
def TakesAwayTest (change : FileChange) (path : Path) : Prop :=
  IsTest path.1 ∧ ((change.kind = .deleted ∧ path = change.path) ∨
    ∃ similarity, change.kind = .renamed path similarity ∧
      matchesAnyGlob testGlobs change.path.1 = false)

/-- Every path the changes touch is in front of every rule that looks at paths. -/
structure TouchedVisible [Host] (set : ChangeSet) : Prop where
  paths : ∀ change ∈ set.changes, ∀ path ∈ change.touched,
    ∃ file ∈ (parseUnifiedDiff (render set.changes)).files, file.path = path.1
  rules : ∀ policy labels assessment,
    classifyRisk ⟨parseUnifiedDiff (render set.changes), labels, policy⟩ = some assessment →
    ∀ change ∈ set.changes, ∀ path ∈ change.touched, ∀ rule ∈ policy.risk.paths,
      matchesAnyGlob rule.patterns path.1 = true → rule.risk ≤ assessment.risk
  controlPlane : ∀ policy labels assessment,
    classifyRisk ⟨parseUnifiedDiff (render set.changes), labels, policy⟩ = some assessment →
    ∀ change ∈ set.changes, ∀ path ∈ change.touched,
      matchesAnyGlob policy.controlPlane.patterns path.1 = true ∨
        matchesAnyGlob policy.controlPlane.alwaysPolicy path.1 = true → assessment.risk = .high
  tests : ∀ change ∈ set.changes, ∀ path, TakesAwayTest change path →
    RaisesDeletion (parseUnifiedDiff (render set.changes)) path.1

/-- A change of a single path that git prints as it is and that holds no separator. -/
structure PlainChange (change : FileChange) : Prop where
  single : change.touched = [change.path]
  unquoted : Unquoted change.path
  notSeparated : ¬ Separated change.path.1

theorem oldPath_of_single {change : FileChange} (h : change.touched = [change.path]) :
    change.oldPath = change.path := by
  unfold FileChange.touched at h
  unfold FileChange.oldPath
  cases hkind : change.kind <;> simp_all

theorem readPath_plain {change : FileChange} (h : PlainChange change) :
    readPath change = some change.path.1 := by
  have hold := oldPath_of_single h.single
  exact readPath_of_not_separated (hold ▸ h.unquoted) h.unquoted (hold ▸ h.notSeparated)

theorem compileSignals_of_classifyRisk [Host] {input : RiskInput} {assessment : RiskAssessment}
    (h : classifyRisk input = some assessment) :
    ∃ signals, compileSignals input.policy.controlPlane.policySignals = some signals := by
  cases hsignals : compileSignals input.policy.controlPlane.policySignals with
  | none => rw [classifyRisk, assessControlPlane, hsignals] at h; exact absurd h (by simp)
  | some signals => exact ⟨signals, rfl⟩

/-- A level that a file reaches, the assessment reaches. -/
theorem le_risk_of_reaches [Host] {diff : PullRequestDiff} {labels : List Text}
    {policy : LoopPolicy} {assessment : RiskAssessment} {level : RiskLevel}
    (h : classifyRisk ⟨diff, labels, policy⟩ = some assessment)
    (hreaches : ∀ signals, ∃ file ∈ diff.files, Reaches policy signals file level) :
    level ≤ assessment.risk := by
  obtain ⟨signals, hsignals⟩ := compileSignals_of_classifyRisk h
  obtain ⟨assessment', h', hlevels⟩ := classifyRisk_spec hsignals diff labels
  obtain rfl : assessment' = assessment := Option.some.inj (h'.symm.trans h)
  exact (hlevels level).mpr (.inr (.inr (.inr (.inr (hreaches signals)))))

/-- **Plain changes are seen.** -/
theorem touchedVisible_of_plain [Host] {set : ChangeSet}
    (hplain : ∀ change ∈ set.changes, PlainChange change) : TouchedVisible set := by
  have hfiles := @parse_render set.changes (fun change => change.path.1)
    fun change hc => readPath_plain (hplain change hc)
  have hpaths : ∀ change ∈ set.changes, ∀ path ∈ change.touched,
      ∃ file ∈ (parseUnifiedDiff (render set.changes)).files, file.path = path.1 := by
    intro change hc path hpath
    rw [(hplain change hc).single, List.mem_singleton] at hpath
    subst hpath
    rw [hfiles]
    exact ⟨_, List.mem_map.mpr ⟨change, hc, rfl⟩, readFile_path (hplain change hc).unquoted⟩
  refine ⟨hpaths, ?_, ?_, ?_⟩
  · intro policy labels assessment hassess change hc path hpath rule hrule hglob
    refine le_risk_of_reaches hassess fun signals => ?_
    obtain ⟨file, hfile, heq⟩ := hpaths change hc path hpath
    exact ⟨file, hfile, .inr ⟨rule, hrule, heq ▸ hglob, le_rfl⟩⟩
  · intro policy labels assessment hassess change hc path hpath hglob
    refine le_antisymm le_top (le_risk_of_reaches hassess fun signals => ?_)
    obtain ⟨file, hfile, heq⟩ := hpaths change hc path hpath
    rw [← heq] at hglob
    exact ⟨file, hfile, .inl (.inl (hglob.imp_right .inl))⟩
  · rintro change hc path ⟨⟨hcode, htest⟩, ⟨hkind, rfl⟩ | ⟨similarity, hkind, -⟩⟩
    · rw [RaisesDeletion, checkTestIntegrity, List.mem_flatMap, hfiles]
      refine ⟨_, List.mem_map.mpr ⟨change, hc, rfl⟩, ?_⟩
      have hpath := readFile_path (hplain change hc).unquoted
      have hstatus : (readFile change change.path.1).status = .removed := by
        rw [readFile, foldl_parseFileLine_body, readKind, hkind]
        rfl
      rw [fileIntegrity, hpath, hcode, htest, hstatus]
      simp only [Bool.not_true, Bool.false_eq_true, if_false, decide_true, Bool.and_self, if_true,
        List.mem_singleton, deletedTestFinding, integrityFinding, hpath]
    · have hsingle := (hplain change hc).single
      rw [FileChange.touched, hkind] at hsingle
      exact absurd hsingle (by simp)

/-! ### What each change puts in front of the rules -/

/-- The path read for a change that touches these paths: what stands behind `rename to`, or what the
header is read as. -/
def seenAs : List Path → List Text
  | [path] => (fileHeader.capture 2
      (lit "diff --git " ++ name (lit "a/") path ++ lit " " ++ name (lit "b/") path)).toList
  | [_, path] => [name [] path]
  | _ => []

theorem seenAs_length (touched : List Path) : (seenAs touched).length ≤ 1 := by
  unfold seenAs
  split
  · cases fileHeader.capture 2 _ <;> simp
  · simp
  · simp

theorem path_mem_seenAs {change : FileChange} {file : DiffFile} :
    (readKind change file).path = file.path ∨
      (readKind change file).path ∈ seenAs change.touched := by
  unfold readKind FileChange.touched
  cases change.kind with
  | added => exact .inl rfl
  | deleted => exact .inl rfl
  | modified => exact .inl rfl
  | renamed old similarity => exact .inr (by simp [seenAs])

theorem readFile_path_mem_seenAs {change : FileChange} {path : Text}
    (h : readPath change = some path) : (readFile change path).path ∈ seenAs change.touched := by
  rw [readFile, foldl_parseFileLine_body]
  unfold readPath headerLine at h
  unfold readKind FileChange.touched
  unfold FileChange.oldPath at h
  cases hkind : change.kind with
  | renamed old similarity => simp [seenAs, DiffFile.adding]
  | _ =>
    simp only [hkind] at h
    simp only [seenAs, h, DiffFile.adding]
    simp

/-- One change adds to the paths in front of the rules only what it is seen as. -/
theorem mem_paths_change {change : FileChange} {s : DiffState} {seen : List Text}
    (h : ∀ file ∈ s.all, file.path ∈ seen) :
    ∀ file ∈ ((changeLines change).foldl parseLine s).all,
      file.path ∈ seen ++ seenAs change.touched := by
  intro file hfile
  rw [List.mem_append]
  cases hpath : readPath change with
  | some path =>
    rw [foldl_parseLine_change hpath, DiffState.all, List.mem_append, Option.mem_toList,
      Option.some.injEq] at hfile
    rcases hfile with hfile | rfl
    · exact .inl (h file hfile)
    · exact .inr (readFile_path_mem_seenAs hpath)
  | none =>
    have hlines : ∀ line ∈ changeLines change, fileHeader.capture 2 line = none := by
      intro line hline
      rcases List.mem_cons.mp hline with rfl | hline
      · exact hpath
      · exact bodyLines_not_header change line hline
    obtain ⟨files, current⟩ := s
    rw [foldl_parseLine_body hlines, DiffState.all, List.mem_append, Option.mem_toList] at hfile
    rcases hfile with hfile | hfile
    · exact .inl (h file (List.mem_append_left _ hfile))
    · obtain ⟨file', hcurrent, rfl⟩ := Option.map_eq_some_iff.mp hfile
      have hheader : parseFileLine file' (headerLine change) = file' := by
        simp only [headerLine, List.append_assoc]
        exact parseFileLine_inert (by decide) _ _
      rw [changeLines, List.foldl_cons, hheader, foldl_parseFileLine_body]
      rcases @path_mem_seenAs change file' with hsame | hnew
      · left
        rw [DiffFile.adding, hsame]
        exact h file' (List.mem_append_right _ (Option.mem_toList.mpr hcurrent))
      · exact .inr hnew

/-- Whatever the rules see, some change put it there. -/
theorem path_mem_flatMap_seenAs (changes : List FileChange) :
    ∀ file ∈ (parseUnifiedDiff (render changes)).files,
      file.path ∈ changes.flatMap fun change => seenAs change.touched := by
  have hfold : ∀ (changes : List FileChange) (s : DiffState) (seen : List Text),
      (∀ file ∈ s.all, file.path ∈ seen) →
      ∀ file ∈ (changes.foldl (fun s change => (changeLines change).foldl parseLine s) s).all,
        file.path ∈ seen ++ changes.flatMap fun change => seenAs change.touched := by
    intro changes
    induction changes with
    | nil => intro s seen h; simpa using h
    | cons change changes ih =>
      intro s seen h
      rw [List.foldl_cons, List.flatMap_cons, ← List.append_assoc]
      exact ih _ _ (mem_paths_change h)
  rw [files_parseUnifiedDiff_render]
  exact hfold changes ⟨[], none⟩ [] (by simp [DiffState.all])

/-! ### Counting -/

/-- Two functions, one below the other, with the same sum. -/
theorem eq_of_sum_map_le {α : Type} {f g : α → ℕ} {as : List α} (hle : ∀ a ∈ as, f a ≤ g a)
    (hsum : (as.map g).sum ≤ (as.map f).sum) : ∀ a ∈ as, f a = g a := by
  intro a ha
  by_contra hne
  have hlt := List.sum_lt_sum f g hle ⟨a, ha, lt_of_le_of_ne (hle a ha) hne⟩
  omega

theorem sum_map_flatMap {α β : Type} (f : β → ℕ) (g : α → List β) (as : List α) :
    ((as.flatMap g).map f).sum = (as.map fun a => ((g a).map f).sum).sum := by
  induction as with
  | nil => rfl
  | cons a as ih =>
    rw [List.flatMap_cons, List.map_append, List.sum_append, ih, List.map_cons, List.sum_cons]

/-- The sets of paths the changes touch, each once. -/
def touchedKeys (set : ChangeSet) : List (List Path) :=
  (set.changes.map FileChange.touched).dedup

theorem mem_touchedKeys {set : ChangeSet} {key : List Path} :
    key ∈ touchedKeys set ↔ ∃ change ∈ set.changes, change.touched = key := by
  rw [touchedKeys, List.mem_dedup, List.mem_map]

theorem touched_length (change : FileChange) :
    1 ≤ change.touched.length ∧ (change.touched.length = 1 → change.touched = [change.path]) := by
  unfold FileChange.touched
  cases change.kind <;> simp

theorem touchedKeys_flatten_nodup (set : ChangeSet) : (touchedKeys set).flatten.Nodup := by
  rw [List.nodup_flatten]
  constructor
  · intro key hkey
    obtain ⟨change, hc, rfl⟩ := mem_touchedKeys.mp hkey
    exact set.nodup change hc
  · refine (List.nodup_dedup _).pairwise_of_forall_ne fun key hkey key' hkey' hne path hpath hpath' => ?_
    obtain ⟨change, hc, rfl⟩ := mem_touchedKeys.mp hkey
    obtain ⟨change', hc', rfl⟩ := mem_touchedKeys.mp hkey'
    exact hne (set.apart change hc change' hc' path hpath hpath')

/-- All touched paths are seen: what is seen is a permutation of what is touched. -/
theorem seen_perm_touched {set : ChangeSet}
    (hpaths : ∀ change ∈ set.changes, ∀ path ∈ change.touched,
      ∃ file ∈ (parseUnifiedDiff (render set.changes)).files, file.path = path.1) :
    (∀ key ∈ touchedKeys set, (seenAs key).length = key.length) ∧
      ((touchedKeys set).flatMap id |>.map Subtype.val).Perm ((touchedKeys set).flatMap seenAs) := by
  rw [List.flatMap_id]
  have hnodup : ((touchedKeys set).flatten.map Subtype.val).Nodup :=
    (touchedKeys_flatten_nodup set).map Subtype.val_injective
  have hsubset : (touchedKeys set).flatten.map Subtype.val ⊆ (touchedKeys set).flatMap seenAs := by
    intro t ht
    obtain ⟨path, hpath, rfl⟩ := List.mem_map.mp ht
    obtain ⟨key, hkey, hpath⟩ := List.mem_flatten.mp hpath
    obtain ⟨change, hc, rfl⟩ := mem_touchedKeys.mp hkey
    obtain ⟨file, hfile, heq⟩ := hpaths change hc path hpath
    have hseen := path_mem_flatMap_seenAs set.changes file hfile
    rw [heq] at hseen
    obtain ⟨change', hc', hmem⟩ := List.mem_flatMap.mp hseen
    exact List.mem_flatMap.mpr ⟨change'.touched, mem_touchedKeys.mpr ⟨change', hc', rfl⟩, hmem⟩
  have hsubperm := List.subperm_of_subset hnodup hsubset
  have hone : ∀ key ∈ touchedKeys set, (seenAs key).length ≤ key.length := by
    intro key hkey
    obtain ⟨change, -, rfl⟩ := mem_touchedKeys.mp hkey
    exact (seenAs_length _).trans (touched_length change).1
  have hsum : ((touchedKeys set).map List.length).sum ≤
      ((touchedKeys set).map fun key => (seenAs key).length).sum := by
    have hlength := hsubperm.length_le
    rwa [List.length_map, List.length_flatten, List.length_flatMap] at hlength
  have hequal := eq_of_sum_map_le hone hsum
  refine ⟨hequal, hsubperm.perm_of_length_le ?_⟩
  rw [List.length_map, List.length_flatten, List.length_flatMap]
  exact le_of_eq (congrArg List.sum (List.map_congr_left hequal))

/-- **Seen changes are plain.** -/
theorem plain_of_paths {set : ChangeSet}
    (hpaths : ∀ change ∈ set.changes, ∀ path ∈ change.touched,
      ∃ file ∈ (parseUnifiedDiff (render set.changes)).files, file.path = path.1) :
    ∀ change ∈ set.changes, PlainChange change := by
  obtain ⟨hlengths, hperm⟩ := seen_perm_touched hpaths
  have hseen : ∀ change ∈ set.changes, change.touched = [change.path] ∧
      ∃ path, readPath change = some path ∧ seenAs change.touched = [path] := by
    intro change hc
    have hkey := hlengths change.touched (mem_touchedKeys.mpr ⟨change, hc, rfl⟩)
    have hone := seenAs_length change.touched
    obtain ⟨hpos, hsingle⟩ := touched_length change
    have hsingle := hsingle (by omega)
    refine ⟨hsingle, ?_⟩
    have hread : seenAs change.touched = (readPath change).toList := by
      rw [hsingle, seenAs, readPath, headerLine, oldPath_of_single hsingle]
    cases hpath : readPath change with
    | none =>
      rw [hread, hpath] at hkey
      simp at hkey
      omega
    | some path => exact ⟨path, rfl, by rw [hread, hpath]; rfl⟩
  have hunquoted : ∀ change ∈ set.changes, Unquoted change.path := by
    intro change hc
    obtain ⟨hsingle, path, hpath, -⟩ := hseen change hc
    by_contra hquoted
    rw [← oldPath_of_single hsingle] at hquoted
    rw [readPath_of_quoted hquoted] at hpath
    exact absurd hpath (by simp)
  -- the lengths of what a change touches add up to those of what it is seen as
  let before : List Path → ℕ := fun key => (key.map fun path => path.1.length).sum
  let after : List Path → ℕ := fun key => ((seenAs key).map List.length).sum
  have hsum : ((touchedKeys set).map after).sum ≤ ((touchedKeys set).map before).sum := by
    have htotal := (hperm.map List.length).sum_nat
    rw [List.map_map, sum_map_flatMap, sum_map_flatMap] at htotal
    exact htotal.ge
  have hlonger : ∀ change ∈ set.changes, before change.touched ≤ after change.touched ∧
      (Separated change.path.1 → before change.touched < after change.touched) := by
    intro change hc
    obtain ⟨hsingle, path, hpath, hsame⟩ := hseen change hc
    have hnew := hunquoted change hc
    have hold := oldPath_of_single hsingle
    have hbefore : before change.touched = change.path.1.length := by
      simp only [before, hsingle, List.map_cons, List.map_nil, List.sum_cons, List.sum_nil, add_zero]
    have hafter : after change.touched = path.length := by
      simp only [after, hsame, List.map_cons, List.map_nil, List.sum_cons, List.sum_nil, add_zero]
    rw [hbefore, hafter]
    by_cases hsep : Separated change.path.1
    · obtain ⟨path', hpath', hlt⟩ := readPath_of_separated (hold ▸ hnew) hnew (hold ▸ hsep)
      obtain rfl : path' = path := Option.some.inj (hpath'.symm.trans hpath)
      exact ⟨hlt.le, fun _ => hlt⟩
    · have hread := readPath_of_not_separated (hold ▸ hnew) hnew (hold ▸ hsep)
      obtain rfl : change.path.1 = path := Option.some.inj (hread.symm.trans hpath)
      exact ⟨le_rfl, fun h => absurd h hsep⟩
  have hle : ∀ key ∈ touchedKeys set, before key ≤ after key := by
    intro key hkey
    obtain ⟨change, hc, rfl⟩ := mem_touchedKeys.mp hkey
    exact (hlonger change hc).1
  intro change hc
  refine ⟨(hseen change hc).1, hunquoted change hc, fun hsep => ?_⟩
  have hequal := eq_of_sum_map_le hle hsum change.touched (mem_touchedKeys.mpr ⟨change, hc, rfl⟩)
  have hlt := (hlonger change hc).2 hsep
  omega

/-- **When every touched path is seen.**  Exactly when no change is a rename and no path is quoted or
holds ` b/` behind its first unit. -/
theorem touched_visible_iff [Host] (set : ChangeSet) :
    TouchedVisible set ↔ ∀ change ∈ set.changes, PlainChange change :=
  ⟨fun h => plain_of_paths h.paths, touchedVisible_of_plain⟩

/-- A test that moves out of the tests. -/
def movedTest : ChangeSet where
  changes := [sampleChange (.renamed ⟨lit "e2e/login.test.ts", by decide⟩ 100)
    ⟨lit "notes/login.ts", by decide⟩ []]
  nodup := by decide +kernel
  apart := by decide +kernel

/-- An agent definition whose name ends in `é`. -/
def quotedFile : ChangeSet where
  changes := [sampleChange .modified ⟨lit ".agent/rol" ++ [233], by decide⟩
    [.added ⟨lit "merge: always", by decide⟩]]
  nodup := by decide +kernel
  apart := by decide +kernel

/-- The moved test is read under its new path alone and nothing says that it is gone; the quoted file
is not read at all. -/
theorem moved_test_and_quoted_file_unseen :
    (parseUnifiedDiff (render quotedFile.changes)).files = [] ∧
    ¬ RaisesDeletion (parseUnifiedDiff (render movedTest.changes)) (lit "e2e/login.test.ts") ∧
    ¬ @TouchedVisible asciiHost movedTest ∧ ¬ @TouchedVisible asciiHost quotedFile := by
  have hquoted : (parseUnifiedDiff (render quotedFile.changes)).files = [] := by decide +kernel
  have hmoved : ¬ RaisesDeletion (parseUnifiedDiff (render movedTest.changes))
      (lit "e2e/login.test.ts") := by
    unfold RaisesDeletion
    decide +kernel
  refine ⟨hquoted, hmoved, fun h => hmoved ?_, fun h => ?_⟩
  · refine @TouchedVisible.tests asciiHost movedTest h _ (List.mem_singleton_self _)
      ⟨lit "e2e/login.test.ts", by decide⟩ ⟨?_, .inr ?_⟩
    · unfold IsTest
      decide +kernel
    · exact ⟨100, rfl, by decide +kernel⟩
  · obtain ⟨file, hfile, -⟩ := @TouchedVisible.paths asciiHost quotedFile h _
      (List.mem_singleton_self _) _ (List.mem_singleton_self _)
    rw [hquoted] at hfile
    exact absurd hfile (by simp)

end Newsdeck.Loop

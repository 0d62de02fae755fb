import Newsdeck.Ecma.Replacing
import Newsdeck.Library.Splitting
import Newsdeck.Loop.Lines

/-!
# A declaration read in one pass

The scan of a body is a loop within a loop: from every heading on, it reads the list that follows,
and then goes on with the next line, through the list it has read.  One pass over the lines reads
the same.

* `mem_references_iff_refersTo` — the numbers a text refers to, read off the text;
* `Pass.step` — the pass: whether it is inside a block, and the texts that it has read;
* `scan_pass` — the texts that the scan collects references from are those that the pass reads;
* `mem_dependencies`, `declared_iff`, `sorted_dependencies` — so a declaration is what they name;
* `declaration_eq_iff` — when two bodies declare the same.
-/

namespace Newsdeck.Loop

open Ecma Regex Splitting

/-! ### References -/

/-- The numbers a text refers to. -/
def references (text : Text) : List ℕ :=
  (issueReference.captureAll 1 text).filterMap fun digits =>
    match Json.numberOfDigits digits with
    | ⊤ => none
    | (value : ℕ) => if 0 < value then some value else none

/-- A number sign and digits, and no letter, digit or underscore behind them. -/
def RefersTo (text digits : Text) : Prop :=
  digits ≠ [] ∧ (∀ c ∈ digits, isDigit c = true) ∧
    ∃ before after, text = before ++ 35 :: (digits ++ after) ∧ ∀ c ∈ after.head?, isWord c = false

section Takes

variable {b t : Text} {s' : Cursor ℕ × Captures ℕ}

theorem isWord_of_isDigit {c : ℕ} (h : isDigit c = true) : isWord c = true := by
  simp [isWord, h]

theorem takes_issueReference : issueReference.Takes (⟨b, t⟩, []) s' ↔
    ∃ digits after, t = 35 :: (digits ++ after) ∧ digits ≠ [] ∧ (∀ c ∈ digits, isDigit c = true) ∧
      (∀ c ∈ after.head?, isWord c = false) ∧
        s' = (⟨digits.reverse ++ 35 :: b, after⟩, [(1, digits)]) := by
  have hedge : ∀ {digits after : Text}, digits ≠ [] → (∀ c ∈ digits, isDigit c = true) →
      (atBoundary isWord ⟨digits.reverse ++ 35 :: b, after⟩ = true ↔
        ∀ c ∈ after.head?, isWord c = false) := by
    intro digits after hne hdigits
    obtain ⟨digits, d, rfl⟩ := List.eq_nil_or_concat digits |>.resolve_left hne
    have hlast : isWord d = true := isWord_of_isDigit (hdigits d (by simp))
    cases after <;> simp [atBoundary, hlast]
  constructor
  · rintro ⟨_, hsign, _, hgroup, hboundary⟩
    obtain ⟨rest, rfl, rfl⟩ := takes_units.mp hsign
    obtain ⟨_, hdigits, rfl⟩ := takes_group.mp hgroup
    obtain ⟨digits, after, rfl, hne, hall, rfl⟩ := takes_many1.mp hdigits
    obtain ⟨hat, rfl⟩ := hboundary
    refine ⟨digits, after, rfl, hne, hall, (hedge hne hall).mp hat, ?_⟩
    rw [take_consumed]
    rfl
  · rintro ⟨digits, after, rfl, hne, hall, hafter, rfl⟩
    refine ⟨(⟨35 :: b, digits ++ after⟩, []), takes_units.mpr ⟨digits ++ after, rfl, rfl⟩,
      (⟨digits.reverse ++ 35 :: b, after⟩, [(1, digits)]), takes_group.mpr ?_,
      (hedge hne hall).mpr hafter, rfl⟩
    exact ⟨_, takes_many1.mpr ⟨digits, after, rfl, hne, hall, rfl⟩, by rw [take_consumed]⟩

theorem issueReference_consumes : issueReference.Consumes := by
  intro b t s' htakes
  obtain ⟨digits, after, rfl, -, -, -, rfl⟩ := takes_issueReference.mp htakes
  simp only [List.length_cons, List.length_append]
  omega

/-- Behind its number sign a reference has digits only. -/
theorem issueReference_separate : issueReference.Separate := by
  intro b u v x caps s' hu hv htakes htakes'
  obtain ⟨digits, after, hwhole, -, hdigits, -, hend⟩ := takes_issueReference.mp htakes
  obtain ⟨digits', after', hinner, -, -, -, -⟩ := takes_issueReference.mp htakes'
  obtain ⟨c, u, rfl⟩ := List.exists_cons_of_ne_nil hu
  obtain ⟨d, v, rfl⟩ := List.exists_cons_of_ne_nil hv
  have hafter : x = after := congrArg (fun s => s.1.after) hend
  have hrest : u ++ (d :: v ++ x) = digits ++ after := (List.cons.inj hwhole).2
  have hsame : u ++ d :: v = digits := by
    rw [hafter, ← List.append_assoc] at hrest
    exact List.append_cancel_right hrest
  obtain rfl : d = 35 := (List.cons.inj hinner).1
  exact absurd (hdigits 35 (hsame ▸ by simp)) (by decide)

end Takes

theorem mem_captureAll_references {text digits : Text} :
    digits ∈ issueReference.captureAll 1 text ↔ RefersTo text digits := by
  rw [mem_captureAll_iff issueReference_consumes issueReference_separate]
  constructor
  · rintro ⟨before, rest, pos, caps, rfl, hrun, hlookup⟩
    obtain ⟨found, after, rfl, hne, hdigits, hafter, hend⟩ :=
      takes_issueReference.mp (takes_of_run_done hrun)
    obtain ⟨-, rfl⟩ := Prod.mk.inj hend
    obtain rfl : found = digits := Option.some.inj hlookup
    exact ⟨hne, hdigits, before, after, rfl, hafter⟩
  · rintro ⟨hne, hdigits, before, after, rfl, hafter⟩
    obtain ⟨⟨pos, caps⟩, hrun⟩ := Option.ne_none_iff_exists'.mp (run_ne_none (k := done)
      (takes_issueReference.mpr ⟨digits, after, rfl, hne, hdigits, hafter, rfl⟩ :
        issueReference.Takes (⟨before.reverse, _⟩, []) _) (Option.some_ne_none _))
    obtain ⟨found, after', heq, -, hfound, hafter', hend⟩ :=
      takes_issueReference.mp (takes_of_run_done hrun)
    -- The digits end where no word goes on.
    have hends : ∀ {after : Text}, (∀ c ∈ after.head?, isWord c = false) →
        ∀ c ∈ after.head?, isDigit c = false := by
      intro after h c hc
      have hword := h c hc
      simp only [isWord, Bool.or_eq_false_iff] at hword
      exact hword.1.2
    obtain ⟨rfl, rfl⟩ :=
      span_unique (List.cons.inj heq).2 hdigits (hends hafter) hfound (hends hafter')
    obtain ⟨-, rfl⟩ := Prod.mk.inj hend
    exact ⟨before, _, pos, _, rfl, hrun, rfl⟩

/-- **What `references` reads.** -/
theorem mem_references_iff_refersTo {text : Text} {n : ℕ} :
    n ∈ references text ↔
      0 < n ∧ ∃ digits, RefersTo text digits ∧ Json.numberOfDigits digits = (n : ℕ∞) := by
  unfold references
  simp only [List.mem_filterMap, mem_captureAll_references]
  constructor
  · rintro ⟨digits, hrefers, hvalue⟩
    cases hnumber : Json.numberOfDigits digits with
    | top =>
      rw [hnumber] at hvalue
      cases hvalue
    | coe value =>
      simp only [hnumber, Option.ite_none_right_eq_some, Option.some.injEq] at hvalue
      obtain ⟨hpos, rfl⟩ := hvalue
      exact ⟨hpos, digits, hrefers, hnumber⟩
  · rintro ⟨hpos, digits, hrefers, hnumber⟩
    refine ⟨digits, hrefers, ?_⟩
    rw [hnumber]
    exact if_pos hpos

/-- One digit and several, and what is no reference. -/
example : references (lit "after #7, #12 and #007; not #4x, #_1, # 3 or 5") = [7, 12, 7] := by
  decide +kernel

theorem collectReferences_eq (text : Text) (into : List ℕ) :
    collectReferences text into = (references text).foldl addReference into := by
  unfold collectReferences references
  induction issueReference.captureAll 1 text generalizing into with
  | nil => rfl
  | cons digits rest ih =>
    rw [List.foldl_cons, ih, List.filterMap_cons]
    cases hvalue : Json.numberOfDigits digits with
    | top => rfl
    | coe value =>
      dsimp only
      split <;> rfl

theorem mem_addReference {into : List ℕ} {value n : ℕ} :
    n ∈ addReference into value ↔ n ∈ into ∨ n = value := by
  unfold addReference
  split
  · rename_i hmem
    exact ⟨.inl, fun h => h.elim id fun heq => heq ▸ hmem⟩
  · rw [List.mem_append, List.mem_singleton]

theorem nodup_addReference {into : List ℕ} (h : into.Nodup) (value : ℕ) :
    (addReference into value).Nodup := by
  unfold addReference
  split
  · exact h
  · rename_i hnew
    exact List.nodup_append.mpr ⟨h, List.nodup_singleton value, fun a ha b hb heq =>
      hnew (List.mem_singleton.mp hb ▸ heq ▸ ha)⟩

/-- The references of the texts, each once. -/
def collected (texts : List Text) : List ℕ :=
  texts.foldl (fun into text => collectReferences text into) []

theorem collected_snoc (texts : List Text) (text : Text) :
    collected (texts ++ [text]) = collectReferences text (collected texts) := by
  unfold collected
  rw [List.foldl_append, List.foldl_cons, List.foldl_nil]

theorem mem_foldl_addReference {values into : List ℕ} {n : ℕ} :
    n ∈ values.foldl addReference into ↔ n ∈ into ∨ n ∈ values := by
  induction values generalizing into with
  | nil => simp
  | cons value values ih => rw [List.foldl_cons, ih, mem_addReference, List.mem_cons, or_assoc]

theorem mem_collected {texts : List Text} {n : ℕ} :
    n ∈ collected texts ↔ ∃ text ∈ texts, n ∈ references text := by
  induction texts using List.reverseRecOn with
  | nil => simp [collected]
  | append_singleton texts text ih =>
    rw [collected_snoc, collectReferences_eq, mem_foldl_addReference, ih]
    simp only [List.mem_append, List.mem_singleton, or_and_right, exists_or, exists_eq_left]

theorem nodup_collected (texts : List Text) : (collected texts).Nodup := by
  induction texts using List.reverseRecOn with
  | nil => exact List.nodup_nil
  | append_singleton texts text ih =>
    rw [collected_snoc, collectReferences_eq]
    generalize references text = values
    generalize collected texts = into at ih
    induction values generalizing into with
    | nil => exact ih
    | cons value values ih' => exact ih' _ (nodup_addReference ih value)

/-! ### The pass -/

/-- Where the pass stands: outside the blocks, before an item that may still come, or below one. -/
inductive Stage where
  | outside | awaiting | listing
  deriving DecidableEq, Repr

/-- What the pass has read. -/
structure Pass where
  stage : Stage
  texts : List Text
  deriving DecidableEq, Repr

def Pass.step (pass : Pass) (line : Text) : Pass :=
  match headingText line with
  | some text => ⟨.awaiting, pass.texts ++ [text]⟩
  | none =>
      if pass.stage = .outside then pass
      else if isBlank line then
        -- A blank line ends the block below an item, once something is named.
        if pass.stage = .listing ∧ collected pass.texts ≠ [] then ⟨.outside, pass.texts⟩
        else ⟨.awaiting, pass.texts⟩
      else
        match itemText line with
        | none => ⟨.outside, pass.texts⟩
        | some text => ⟨.listing, pass.texts ++ [text]⟩

def Pass.start : Pass := ⟨.outside, []⟩

def pass (lines : List Text) : Pass := lines.foldl Pass.step .start

theorem pass_snoc (lines : List Text) (line : Text) :
    pass (lines ++ [line]) = (pass lines).step line := by
  unfold pass
  rw [List.foldl_append, List.foldl_cons, List.foldl_nil]

/-- The texts of the headings. -/
def headingTexts (lines : List Text) : List Text := lines.filterMap headingText

/-- Some heading says `none`. -/
def saysNone (lines : List Text) : Bool :=
  (headingTexts lines).any fun text => noneWord.test (trim text)

section Step

variable {line text : Text} {texts : List Text} {stage : Stage}

theorem step_heading (pass : Pass) (h : headingText line = some text) :
    pass.step line = ⟨.awaiting, pass.texts ++ [text]⟩ := by
  unfold Pass.step
  rw [h]

theorem step_outside (h : headingText line = none) :
    (⟨.outside, texts⟩ : Pass).step line = ⟨.outside, texts⟩ := by
  unfold Pass.step
  rw [h]
  rfl

theorem step_blank (h : isBlank line = true) (hstage : stage ≠ .outside) :
    (⟨stage, texts⟩ : Pass).step line =
    if stage = .listing ∧ collected texts ≠ [] then ⟨.outside, texts⟩ else ⟨.awaiting, texts⟩ := by
  unfold Pass.step
  rw [headingText_of_isBlank h]
  dsimp only
  rw [if_neg hstage, if_pos h]

theorem step_item (h : itemText line = some text) (hstage : stage ≠ .outside) :
    (⟨stage, texts⟩ : Pass).step line = ⟨.listing, texts ++ [text]⟩ := by
  have hblank : isBlank line ≠ true := fun hblank => by simp [itemText_of_isBlank hblank] at h
  unfold Pass.step
  rw [headingText_of_itemText h]
  dsimp only
  rw [if_neg hstage, if_neg hblank, h]

theorem step_other (h : headingText line = none) (hblank : isBlank line ≠ true)
    (hitem : itemText line = none) :
    (⟨stage, texts⟩ : Pass).step line = ⟨.outside, texts⟩ := by
  unfold Pass.step
  rw [h]
  by_cases hstage : stage = .outside
  · rw [hstage]
    rfl
  · dsimp only
    rw [if_neg hstage, if_neg hblank, hitem]

/-- What a line adds, inside a block or outside. -/
def readLine (inside : Prop) [Decidable inside] (line : Text) : List Text :=
  match headingText line with
  | some text => [text]
  | none => if inside then (itemText line).toList else []

theorem texts_step (pass : Pass) (line : Text) :
    (pass.step line).texts = pass.texts ++ readLine (pass.stage ≠ .outside) line := by
  obtain ⟨stage, texts⟩ := pass
  unfold readLine
  cases hheading : headingText line with
  | some text => rw [step_heading _ hheading]
  | none =>
    dsimp only
    by_cases hstage : stage = .outside
    · rw [hstage, step_outside hheading, if_neg (by simp), List.append_nil]
    · rw [if_pos hstage]
      by_cases hblank : isBlank line = true
      · rw [step_blank hblank hstage, itemText_of_isBlank hblank]
        split <;> simp
      · cases hitem : itemText line with
        | none => rw [step_other hheading hblank hitem, Option.toList_none, List.append_nil]
        | some text => rw [step_item hitem hstage, Option.toList_some]

end Step

/-! ### The scan reads what the pass reads -/

theorem scanBlocks_heading {line text : Text} (h : headingText line = some text) (rest : List Text)
    (scan : BlockScan) : scanBlocks (line :: rest) scan =
      scanBlocks rest ⟨scanItems line rest (collectReferences text scan.dependencies), true,
        scan.explicitNone || noneWord.test (trim text)⟩ := by
  rw [scanBlocks, heading_capture, h]

theorem scanBlocks_other {line : Text} (h : headingText line = none) (rest : List Text)
    (scan : BlockScan) :
    scanBlocks (line :: rest) scan = scanBlocks rest scan := by
  rw [scanBlocks, heading_capture, h]

theorem scanItems_blank {previous line : Text} (h : isBlank line = true) (rest : List Text)
    (dependencies : List ℕ) : scanItems previous (line :: rest) dependencies =
      if 0 < dependencies.length && listItem.test previous then dependencies
      else scanItems line rest dependencies := by
  rw [scanItems, if_pos (of_decide_eq_true h)]

theorem scanItems_item {previous line text : Text} (h : itemText line = some text)
    (rest : List Text) (dependencies : List ℕ) : scanItems previous (line :: rest) dependencies =
      scanItems line rest (collectReferences text dependencies) := by
  have hblank : ¬ (trim line).length = 0 := fun hlength => by
    simp [itemText_of_isBlank (decide_eq_true hlength)] at h
  rw [scanItems, if_neg hblank, listItem_capture, h]

theorem scanItems_other {previous line : Text} (hblank : isBlank line ≠ true)
    (h : itemText line = none) (rest : List Text) (dependencies : List ℕ) :
    scanItems previous (line :: rest) dependencies = dependencies := by
  rw [scanItems, if_neg fun hlength => hblank (decide_eq_true hlength), listItem_capture, h]

/-- What the inner loop has to have found, where the pass stands. -/
def owed (stage : Stage) (previous : Text) (rest : List Text) (dependencies : List ℕ) : List ℕ :=
  if stage = .outside then dependencies else scanItems previous rest dependencies

/-- **The loops.**  The inner loop runs ahead; the outer loop then finds what the pass does. -/
theorem scan_pass (rest : List Text) : ∀ (stage : Stage) (previous : Text) (texts : List Text)
    (found none : Bool), (stage ≠ .outside → (listItem.test previous = true ↔ stage = .listing)) →
    (scanBlocks rest ⟨owed stage previous rest (collected texts), found, none⟩).dependencies =
      collected (rest.foldl Pass.step ⟨stage, texts⟩).texts := by
  induction rest with
  | nil =>
    intro stage previous texts found none _
    unfold owed scanBlocks
    split <;> rfl
  | cons line rest ih =>
    intro stage previous texts found none hprevious
    rw [List.foldl_cons]
    cases hheading : headingText line with
    | some text =>
      have hblank : isBlank line ≠ true :=
        fun hblank => by simp [headingText_of_isBlank hblank] at hheading
      have hitem : itemText line = Option.none := by
        cases hitem : itemText line with
        | none => rfl
        | some item => simp [headingText_of_itemText hitem] at hheading
      have howed : owed stage previous (line :: rest) (collected texts) = collected texts := by
        unfold owed
        rw [scanItems_other hblank hitem, ite_self]
      rw [howed, scanBlocks_heading hheading, step_heading _ hheading, ← collected_snoc]
      refine ih .awaiting line _ _ _ fun _ => ?_
      simp [listItem_test, hitem]
    | none =>
      rw [scanBlocks_other hheading]
      by_cases hstage : stage = .outside
      · rw [hstage, step_outside hheading]
        exact ih .outside line texts found none fun h => absurd rfl h
      · have howed : owed stage previous (line :: rest) (collected texts) =
            scanItems previous (line :: rest) (collected texts) := if_neg hstage
        rw [howed]
        by_cases hblank : isBlank line = true
        · have hends : (0 < (collected texts).length && listItem.test previous) = true ↔
              stage = .listing ∧ collected texts ≠ [] := by
            rw [Bool.and_eq_true, decide_eq_true_iff, List.length_pos_iff, hprevious hstage,
              and_comm]
          rw [scanItems_blank hblank, step_blank hblank hstage]
          by_cases hend : stage = .listing ∧ collected texts ≠ []
          · rw [if_pos hend, if_pos (hends.mpr hend)]
            exact ih .outside line texts found none fun h => absurd rfl h
          · rw [if_neg hend, if_neg fun h => hend (hends.mp h)]
            refine ih .awaiting line texts found none fun _ => ?_
            simp [listItem_test, itemText_of_isBlank hblank]
        · cases hitem : itemText line with
          | none =>
            rw [scanItems_other hblank hitem, step_other hheading hblank hitem]
            exact ih .outside line texts found none fun h => absurd rfl h
          | some text =>
            rw [scanItems_item hitem, step_item hitem hstage, ← collected_snoc]
            refine ih .listing line _ found none fun _ => ?_
            simp [listItem_test, hitem]

theorem scanBlocks_found (lines : List Text) (scan : BlockScan) :
    (scanBlocks lines scan).blockFound = (scan.blockFound || !(headingTexts lines).isEmpty) ∧
      (scanBlocks lines scan).explicitNone = (scan.explicitNone || saysNone lines) := by
  induction lines generalizing scan with
  | nil =>
    unfold scanBlocks
    simp [headingTexts, saysNone]
  | cons line lines ih =>
    unfold saysNone headingTexts at ih ⊢
    rw [List.filterMap_cons]
    cases hheading : headingText line with
    | none =>
      rw [scanBlocks_other hheading]
      exact ih scan
    | some text =>
      rw [scanBlocks_heading hheading]
      simp [ih, Bool.or_assoc]

/-! ### What is declared -/

/-- What is named in a body. -/
def named (body : Text) : List ℕ := collected (pass (body.splitOn 10)).texts

theorem scanBlocks_named (body : Text) :
    (scanBlocks (body.splitOn 10) ⟨[], false, false⟩).dependencies = named body :=
  scan_pass _ .outside [] [] false false fun h => absurd rfl h

theorem mem_dependencies {body : Text} {n : ℕ} :
    n ∈ (parseDependencyDeclaration (some body)).dependencies ↔ n ∈ named body := by
  rw [← scanBlocks_named]
  exact List.mem_insertionSort _

theorem sorted_dependencies (body : Text) :
    (parseDependencyDeclaration (some body)).dependencies.Pairwise (· < ·) := by
  have hperm : (parseDependencyDeclaration (some body)).dependencies.Perm (named body) := by
    rw [← scanBlocks_named]
    exact List.perm_insertionSort _ _
  have hle : (parseDependencyDeclaration (some body)).dependencies.Pairwise (· ≤ ·) :=
    List.pairwise_insertionSort _ _
  have hne := hperm.nodup_iff.mpr (nodup_collected _)
  exact hle.imp₂ (fun _ _ hab hne => lt_of_le_of_ne hab hne) hne

theorem declared_iff (body : Text) : (parseDependencyDeclaration (some body)).declared = true ↔
    named body ≠ [] ∨ saysNone (body.splitOn 10) = true := by
  obtain ⟨hfound, hnone⟩ := scanBlocks_found (body.splitOn 10) ⟨[], false, false⟩
  simp only [Bool.false_or] at hfound hnone
  have hnames : named body ≠ [] → headingTexts (body.splitOn 10) ≠ [] := by
    intro hne hnil
    rw [hnil] at hfound
    rw [← scanBlocks_named, scanBlocks_of_not_blockFound _ _ hfound] at hne
    exact hne rfl
  have htold : saysNone (body.splitOn 10) = true → headingTexts (body.splitOn 10) ≠ [] := by
    intro htold hnil
    unfold saysNone at htold
    rw [hnil] at htold
    cases htold
  unfold parseDependencyDeclaration
  dsimp only
  rw [scanBlocks_named, hfound, hnone, Bool.and_eq_true, Bool.or_eq_true, decide_eq_true_iff,
    List.length_pos_iff, Bool.not_eq_true', List.isEmpty_eq_false_iff]
  exact ⟨And.right, fun h => ⟨h.elim hnames htold, h⟩⟩

theorem declaration_ext {x y : DependencyDeclaration} (hdeclared : x.declared = y.declared)
    (hdependencies : x.dependencies = y.dependencies) : x = y := by
  cases x
  cases y
  exact congr (congrArg DependencyDeclaration.mk hdeclared) hdependencies

/-- **Two bodies declare the same** when they name the same, and, where they name nothing, both say
`none` or neither does. -/
theorem declaration_eq_iff (a b : Text) :
    parseDependencyDeclaration (some a) = parseDependencyDeclaration (some b) ↔
      (∀ n, n ∈ named a ↔ n ∈ named b) ∧
        (named a = [] → (saysNone (a.splitOn 10) = true ↔ saysNone (b.splitOn 10) = true)) := by
  have hmem : (parseDependencyDeclaration (some a)).dependencies =
      (parseDependencyDeclaration (some b)).dependencies ↔ ∀ n, n ∈ named a ↔ n ∈ named b := by
    constructor
    · intro heq n
      rw [← mem_dependencies, heq, mem_dependencies]
    · intro hsame
      refine List.Perm.eq_of_pairwise (fun x y _ _ hxy hyx => absurd hyx (lt_asymm hxy))
        (sorted_dependencies a) (sorted_dependencies b) ?_
      refine (List.perm_ext_iff_of_nodup ?_ ?_).mpr fun n => ?_
      · exact (sorted_dependencies a).imp fun h => h.ne
      · exact (sorted_dependencies b).imp fun h => h.ne
      · rw [mem_dependencies, mem_dependencies, hsame]
  have hempty (hsame : ∀ n, n ∈ named a ↔ n ∈ named b) : named a = [] ↔ named b = [] := by
    simp only [List.eq_nil_iff_forall_not_mem, hsame]
  constructor
  · intro heq
    have hsame := hmem.mp (congrArg DependencyDeclaration.dependencies heq)
    refine ⟨hsame, fun hnil => ?_⟩
    have hdeclared := declared_iff a
    rw [heq, declared_iff b] at hdeclared
    simpa [hnil, (hempty hsame).mp hnil] using hdeclared.symm
  · rintro ⟨hsame, htold⟩
    refine declaration_ext (Bool.eq_iff_iff.mpr ?_) (hmem.mpr hsame)
    rw [declared_iff, declared_iff]
    by_cases hnil : named a = []
    · rw [htold hnil, hnil, (hempty hsame).mp hnil]
    · exact iff_of_true (.inl hnil) (.inl fun h => hnil ((hempty hsame).mpr h))

end Newsdeck.Loop

import Newsdeck.Ecma.Derivations
import Newsdeck.Runner.Slug

/-!
# When a slug has the length it should

The cut needs a hyphen among the first characters.  There is one as soon as the title's first word
is short enough; where it is longer, nothing is cut.

* `slugWords_spec` — the words of a title: the first one, and a hyphen if more follow;
* `cuttable_slugWords_iff` — what the cut needs;
* `slugify_units`, `slugify_ends`, `branchName_isAgentBranch` — what holds of every slug;
* `slug_bounded_iff` — all that is asked of a slug.
-/

namespace Newsdeck.Runner

open Ecma

/-! ### Hyphens -/

/-- `[a-z0-9-]`. -/
def isBranchUnit (c : ℕ) : Bool := isSlugUnit c || c = 45

theorem hyphenate_units (text : Text) : ∀ replaced, ∀ c ∈ hyphenate replaced text,
    isBranchUnit c = true := by
  induction text with
  | nil => exact fun _ c hc => absurd hc List.not_mem_nil
  | cons d text ih =>
    intro replaced c hc
    unfold hyphenate at hc
    split at hc
    · rename_i hd
      rcases List.mem_cons.mp hc with rfl | hc
      · rw [isBranchUnit, hd, Bool.true_or]
      · exact ih _ c hc
    · split at hc
      · exact ih _ c hc
      · rcases List.mem_cons.mp hc with rfl | hc
        · decide
        · exact ih _ c hc

/-- A word is kept, and a hyphen takes the place of what follows it. -/
theorem hyphenate_word {word : Text} (hword : ∀ c ∈ word, isSlugUnit c = true) {rest : Text}
    (hrest : ∀ c ∈ rest.head?, isSlugUnit c = false) :
    ∃ tail, hyphenate false (word ++ rest) = word ++ tail ∧ CutsBefore tail := by
  induction word with
  | nil =>
    cases rest with
    | nil => exact ⟨[], rfl, .inl rfl⟩
    | cons c rest =>
      have hc : isSlugUnit c = false := hrest c rfl
      refine ⟨45 :: hyphenate true rest, ?_, .inr rfl⟩
      rw [List.nil_append, hyphenate, hc]
      rfl
  | cons c word ih =>
    obtain ⟨tail, htail, hcut⟩ := ih fun d hd => hword d (List.mem_cons_of_mem _ hd)
    refine ⟨tail, ?_, hcut⟩
    rw [List.cons_append, hyphenate, if_pos (hword c List.mem_cons_self), htail]
    rfl

/-- What stands in front of the first word becomes a hyphen at most. -/
theorem hyphenate_front {front : Text} (hfront : ∀ c ∈ front, isSlugUnit c = false) (rest : Text)
    (hrest : ∀ c ∈ rest.head?, isSlugUnit c = true) : ∀ replaced, ∃ hyphens,
      (∀ c ∈ hyphens, c = 45) ∧ hyphenate replaced (front ++ rest) =
        hyphens ++ hyphenate false rest := by
  induction front with
  | nil =>
    intro replaced
    refine ⟨[], by simp, ?_⟩
    cases rest with
    | nil => cases replaced <;> rfl
    | cons c rest =>
      have hc : isSlugUnit c = true := hrest c rfl
      rw [List.nil_append, List.nil_append, hyphenate, hyphenate, if_pos hc, if_pos hc]
  | cons c front ih =>
    intro replaced
    have hc : isSlugUnit c = false := hfront c List.mem_cons_self
    obtain ⟨hyphens, hall, heq⟩ := ih (fun d hd => hfront d (List.mem_cons_of_mem _ hd)) true
    cases replaced with
    | true => exact ⟨hyphens, hall, by rw [List.cons_append, hyphenate, hc]; exact heq⟩
    | false =>
      refine ⟨45 :: hyphens, by simpa using hall, ?_⟩
      rw [List.cons_append, hyphenate, hc, List.cons_append, ← heq]
      rfl

/-- Trimming takes hyphens away, and leaves none at the end. -/
theorem trimHyphensEnd_spec (text : Text) :
    (∃ hyphens, text = trimHyphensEnd text ++ hyphens ∧ ∀ c ∈ hyphens, c = 45) ∧
      ∀ c ∈ (trimHyphensEnd text).getLast?, c ≠ 45 := by
  have hsplit : text = trimHyphensEnd text ++ (text.reverse.takeWhile (· = 45)).reverse := by
    rw [trimHyphensEnd, ← List.reverse_append, List.takeWhile_append_dropWhile,
      List.reverse_reverse]
  refine ⟨⟨_, hsplit, fun c hc => ?_⟩, fun c hc => ?_⟩
  · simpa using List.mem_takeWhile_imp (List.mem_reverse.mp hc)
  · rw [trimHyphensEnd, List.getLast?_reverse] at hc
    have hhead := List.head?_dropWhile_not (fun c : ℕ => decide (c = 45)) text.reverse
    rw [Option.mem_def.mp hc] at hhead
    simpa using hhead

section Slug

variable [Host] [Unicode] (issue : ℕ) (title : Text)

/-- The first run of letters and digits in the title, as a slug spells it. -/
def firstWord : Text :=
  ((Host.toLowerCase (Unicode.nfkd title)).dropWhile fun c => !isSlugUnit c).takeWhile isSlugUnit

theorem firstWord_units : ∀ c ∈ firstWord title, isSlugUnit c = true :=
  fun _ hc => List.mem_takeWhile_imp hc

/-- The words of a title are the first one, and more behind a hyphen. -/
theorem slugWords_spec : ∃ tail, slugWords title = firstWord title ++ tail ∧ CutsBefore tail := by
  set text := Host.toLowerCase (Unicode.nfkd title) with htext
  have hfront : ∀ c ∈ text.takeWhile fun c => !isSlugUnit c, isSlugUnit c = false := fun c hc => by
    simpa using List.mem_takeWhile_imp hc
  have hhead : ∀ c ∈ (text.dropWhile fun c => !isSlugUnit c).head?, isSlugUnit c = true := by
    intro c hc
    have hnot := List.head?_dropWhile_not (fun c => !isSlugUnit c) text
    rw [Option.mem_def.mp hc] at hnot
    simpa using hnot
  obtain ⟨hyphens, hhyphens, heq⟩ := hyphenate_front hfront _ hhead false
  rw [List.takeWhile_append_dropWhile] at heq
  have hrest : ∀ c ∈ ((text.dropWhile fun c => !isSlugUnit c).dropWhile isSlugUnit).head?,
      isSlugUnit c = false := by
    intro c hc
    have hnot := List.head?_dropWhile_not isSlugUnit (text.dropWhile fun c => !isSlugUnit c)
    rw [Option.mem_def.mp hc] at hnot
    simpa using hnot
  obtain ⟨tail, htail, hcut⟩ := hyphenate_word (firstWord_units title) hrest
  have hwords : hyphenate false (text.dropWhile fun c => !isSlugUnit c) =
      firstWord title ++ tail := by
    rw [← htail, firstWord, ← htext, List.takeWhile_append_dropWhile]
  have hdrop : (hyphens ++ (firstWord title ++ tail)).dropWhile (· = 45) =
      firstWord title ++ tail := by
    rw [List.dropWhile_append_of_pos (by simpa using hhyphens)]
    cases hword : firstWord title with
    | cons c word =>
      have hc : c ≠ 45 := fun h => by
        have hunit := firstWord_units title c (by rw [hword]; exact List.mem_cons_self)
        rw [h] at hunit
        cases hunit
      rw [List.cons_append, List.dropWhile_cons_of_neg (by simpa using hc)]
    | nil =>
      -- without a first word nothing is left of the title
      have hnone : text.dropWhile (fun c => !isSlugUnit c) = [] := by
        cases hleft : text.dropWhile (fun c => !isSlugUnit c) with
        | nil => rfl
        | cons c left =>
          have hc : isSlugUnit c = true := hhead c (by rw [hleft]; rfl)
          rw [firstWord, ← htext, hleft, List.takeWhile_cons_of_pos hc] at hword
          cases hword
      rw [hnone, hword] at hwords
      rw [← hwords]
      rfl
  have hslug : slugWords title = trimHyphensEnd (firstWord title ++ tail) := by
    rw [slugWords, trimHyphens, ← htext, heq, hwords, hdrop]
  obtain ⟨⟨ends, hends, hall⟩, -⟩ := trimHyphensEnd_spec (firstWord title ++ tail)
  rw [← hslug] at hends
  rcases List.append_eq_append_iff.mp hends with ⟨more, hmore, htail'⟩ | ⟨more, hmore, hends'⟩
  · refine ⟨more, hmore, ?_⟩
    rcases hcut with rfl | hcut
    · exact .inl (List.append_eq_nil_iff.mp htail'.symm).1
    · cases more with
      | nil => exact .inl rfl
      | cons c more =>
        rw [htail'] at hcut
        exact .inr hcut
  · have hnil : more = [] := by
      refine List.eq_nil_iff_forall_not_mem.mpr fun c hc => ?_
      obtain rfl : c = 45 := hall c (hends' ▸ List.mem_append_left _ hc)
      have hunit := firstWord_units title 45 (hmore ▸ List.mem_append_right _ hc)
      cases hunit
    rw [hnil, List.append_nil] at hmore
    exact ⟨[], by rw [hmore, List.append_nil], .inl rfl⟩

/-- **A title whose slug can be cut** has a first word within the limit. -/
theorem cuttable_slugWords_iff : Cuttable (slugWords title) ↔
    (firstWord title).length ≤ maxSlugLength := by
  obtain ⟨tail, hwords, htail⟩ := slugWords_spec title
  constructor
  · rintro ⟨kept, rest, hsplit, hkept, hrest⟩
    by_contra hlong
    rw [hwords] at hsplit
    -- the cut would stand before a letter or a digit of the first word
    rcases List.append_eq_append_iff.mp hsplit with ⟨more, rfl, -⟩ | ⟨more, hmore, rfl⟩
    · rw [List.length_append] at hkept
      omega
    · cases more with
      | nil =>
        rw [hmore, List.append_nil] at hlong
        exact hlong hkept
      | cons c more =>
        rcases hrest with hnil | hhead
        · cases hnil
        · obtain rfl : c = 45 := by simpa using hhead
          have hunit :=
            firstWord_units title 45 (hmore ▸ List.mem_append_right _ List.mem_cons_self)
          cases hunit
  · exact fun hshort => ⟨firstWord title, tail, hwords, hshort, htail⟩

/-! ### What holds of every slug -/

/-- A slug is the beginning of the words, or stands for a title without any. -/
theorem slugify_cases : slugify title = lit "issue" ∨
    slugify title ≠ [] ∧ slugify title <+: slugWords title ∧
      ∀ c ∈ (slugify title).getLast?, c ≠ 45 := by
  have hcut : cutSlug (slugWords title) <+: slugWords title := by
    rcases cutSlug_cases (slugWords title) with ⟨-, -, hbegins⟩ | ⟨-, heq⟩
    · exact hbegins
    · rw [heq]
  obtain ⟨⟨ends, hends, -⟩, hlast⟩ := trimHyphensEnd_spec (cutSlug (slugWords title))
  have hslug : slugify title = if trimHyphensEnd (cutSlug (slugWords title)) = [] then lit "issue"
      else trimHyphensEnd (cutSlug (slugWords title)) := rfl
  rw [hslug]
  split
  · exact .inl rfl
  · rename_i hne
    exact .inr ⟨hne, .trans ⟨ends, hends.symm⟩ hcut, hlast⟩

theorem slugWords_units : ∀ c ∈ slugWords title, isBranchUnit c = true := by
  intro c hc
  have hsub : c ∈ hyphenate false (Host.toLowerCase (Unicode.nfkd title)) := by
    have hend := (List.dropWhile_sublist _).subset (List.mem_reverse.mp hc)
    exact (List.dropWhile_sublist _).subset (List.mem_reverse.mp hend)
  exact hyphenate_units _ _ c hsub

theorem slugify_units : ∀ c ∈ slugify title, isBranchUnit c = true := by
  rcases slugify_cases title with heq | ⟨-, hbegins, -⟩
  · rw [heq]
    decide
  · exact fun c hc => slugWords_units title c (hbegins.subset hc)

theorem slugify_ne_nil : slugify title ≠ [] := by
  rcases slugify_cases title with heq | ⟨hne, -⟩
  · rw [heq]
    decide
  · exact hne

theorem slugify_ends : (∀ c ∈ (slugify title).head?, c ≠ 45) ∧
    ∀ c ∈ (slugify title).getLast?, c ≠ 45 := by
  rcases slugify_cases title with heq | ⟨hne, hbegins, hlast⟩
  · rw [heq]
    decide
  · refine ⟨fun c hc => ?_, hlast⟩
    obtain ⟨⟨ends, hends, -⟩, -⟩ := trimHyphensEnd_spec
      ((hyphenate false (Host.toLowerCase (Unicode.nfkd title))).dropWhile (· = 45))
    have hslug : slugify title <+:
        (hyphenate false (Host.toLowerCase (Unicode.nfkd title))).dropWhile (· = 45) :=
      hbegins.trans ⟨ends, hends.symm⟩
    obtain ⟨more, hmore⟩ := hslug
    have hnot := List.head?_dropWhile_not (fun c : ℕ => decide (c = 45))
      (hyphenate false (Host.toLowerCase (Unicode.nfkd title)))
    rw [← hmore, List.head?_append_of_ne_nil _ hne, Option.mem_def.mp hc] at hnot
    simpa using hnot

/-- The runner is allowed to touch the branches it names. -/
theorem branchName_isAgentBranch : isAgentBranch (branchName issue title) = true := by
  unfold isAgentBranch
  rw [Regex.test_iff]
  refine ⟨[], branchName issue title, rfl, (⟨(branchName issue title).reverse, []⟩, []), ?_⟩
  have hdigits : ∀ c ∈ decimal issue, isDigit c = true := by
    intro c hc
    have hdigit := decimal_digit hc
    simp only [isDigit, Bool.and_eq_true, decide_eq_true_eq]
    omega
  have hname : branchName issue title =
      lit "agent/issue-" ++ (decimal issue ++ (lit "-" ++ (slugify title ++ []))) := by
    simp [branchName]
  rw [hname]
  refine ⟨_, ⟨rfl, rfl⟩, _, Regex.takes_units.mpr ⟨_, rfl, rfl⟩, _, Regex.takes_many1.mpr
    ⟨_, _, rfl, decimal_ne_nil issue, hdigits, rfl⟩, _, Regex.takes_units.mpr ⟨_, rfl, rfl⟩, _,
    Regex.takes_many1.mpr ⟨_, _, rfl, slugify_ne_nil title, slugify_units title, rfl⟩, rfl, ?_⟩
  simp

/-- **What is asked of a slug** holds exactly when the first word of the title is no longer than the
limit: it is not empty, of letters, digits and hyphens, within the limit, without a hyphen at either
end, and the runner may touch the branch that is named after it. -/
theorem slug_bounded_iff :
    (slugify title ≠ [] ∧ (∀ c ∈ slugify title, isSlugUnit c = true ∨ c = 45) ∧
      (slugify title).length ≤ maxSlugLength ∧ (slugify title).head? ≠ some 45 ∧
      (slugify title).getLast? ≠ some 45 ∧ isAgentBranch (branchName issue title) = true) ↔
    (firstWord title).length ≤ maxSlugLength := by
  rw [← cuttable_slugWords_iff]
  constructor
  · rintro ⟨-, -, hlength, -⟩
    by_contra huncut
    rw [slugify_uncut huncut] at hlength
    exact huncut ((cuttable_iff _).mpr (.inl hlength))
  · intro hcut
    obtain ⟨hfirst, hlast⟩ := slugify_ends title
    refine ⟨slugify_ne_nil title, fun c hc => ?_, slugify_length_le hcut, fun h => hfirst 45 h rfl,
      fun h => hlast 45 h rfl, branchName_isAgentBranch issue title⟩
    simpa [isBranchUnit] using slugify_units title c hc

end Slug

/-- A title of one word of 41 letters keeps them all. -/
theorem long_word_uncut :
    @slugify asciiHost asciiUnicode (List.replicate 41 97) = List.replicate 41 97 ∧
      ¬ (@slugify asciiHost asciiUnicode (List.replicate 41 97)).length ≤ maxSlugLength := by
  decide +kernel

end Newsdeck.Runner

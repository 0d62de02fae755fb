import Mathlib.Data.List.DropRight
import Newsdeck.Runner.Branch

/-!
# How long a slug is

A slug is cut at its last hyphen among the first characters.  Where there is none, the expression
does not match, and the slug keeps its length.

* `cutSlug_cases` — what the cut leaves;
* `slugify_length_le` — a slug that can be cut has the length the source sets out to keep;
* `slugify_uncut` — one that cannot is as long as the title's words;
* `branchName_length_le_iff` — so much for the name of the branch.
-/

namespace Newsdeck.Runner

open Ecma

/-! ### The cut -/

/-- What the expression asks of the text after the cut. -/
def slugTail : Regex ℕ :=
  .seq (.opt (.group 2 (.seq (.str "-") (.many .any)))) .eol

/-- A slug may be cut at its end, or before a hyphen. -/
def CutsBefore (rest : Text) : Prop := rest = [] ∨ rest.head? = some 45

section Tail

variable {rest : Text}

/-- Everything to the end. -/
theorem run_rest (k : Cont ℕ) (h : ∀ b c t caps, k ⟨b, c :: t⟩ caps = none) (b t : Text)
    (caps : Captures ℕ) : (Regex.many .any).run k ⟨b, t⟩ caps = k ⟨t.reverse ++ b, []⟩ caps := by
  have hgreedy := Regex.greedy_of_stop (fun _ => true) k caps t b []
    (fun _ _ => rfl) (by simp) (fun b' c t' _ => h b' c t' caps)
  rw [List.append_nil] at hgreedy
  exact (Regex.run_many _ k b t caps).trans hgreedy

theorem slugTail_some (before : Text) (caps : Captures ℕ) (h : CutsBefore rest) :
    ∃ pos more, slugTail.run Regex.done ⟨before, rest⟩ caps = some (pos, more ++ caps) ∧
      List.lookup 1 more = none := by
  cases rest with
  | nil => exact ⟨⟨before, []⟩, [], rfl, rfl⟩
  | cons c rest =>
    obtain rfl : c = 45 := by simpa [CutsBefore] using h
    refine ⟨⟨rest.reverse ++ 45 :: before, []⟩, [(2, 45 :: rest)], ?_, rfl⟩
    have hstr : lit "-" = [45] := by decide
    simp only [slugTail, Regex.opt, Regex.str, hstr, Regex.units, Regex.run_seq, Regex.run_alt,
      Regex.run_group, Regex.run_cls_cons, Regex.run_empty, decide_true, if_true]
    rw [run_rest _ fun b c t caps => rfl]
    simp [Regex.done]

theorem slugTail_none (before : Text) (caps : Captures ℕ) (h : ¬ CutsBefore rest) :
    slugTail.run Regex.done ⟨before, rest⟩ caps = none := by
  have hstr : lit "-" = [45] := by decide
  cases rest with
  | nil => exact absurd (.inl rfl) h
  | cons c rest =>
    have hc : c ≠ 45 := fun hc => h (.inr (by rw [hc]; rfl))
    simp [slugTail, Regex.opt, Regex.str, hstr, Regex.units, hc]

end Tail

/-- What the expression does once it has read as much as it keeps. -/
def slugRest (slug : Text) : Cont ℕ := fun pos caps =>
  slugTail.run Regex.done pos ((1, slug.take (slug.length - pos.after.length)) :: caps)

theorem slugCut_exec (slug : Text) :
    slugCut.exec slug = (Regex.upTo maxSlugLength .any).run (slugRest slug) ⟨[], slug⟩ [] :=
  Regex.exec_bol _ slug

/-- A place among the first characters at which a slug can be cut. -/
def Cuttable (slug : Text) : Prop :=
  ∃ kept rest, slug = kept ++ rest ∧ kept.length ≤ maxSlugLength ∧ CutsBefore rest

/-- What the cut leaves: a beginning no longer than the limit, or, where no place to cut is within
the limit, everything. -/
theorem cutSlug_cases (slug : Text) :
    (Cuttable slug ∧ (cutSlug slug).length ≤ maxSlugLength ∧ cutSlug slug <+: slug) ∨
      (¬ Cuttable slug ∧ cutSlug slug = slug) := by
  unfold cutSlug Regex.capture
  cases hrun : slugCut.exec slug with
  | none =>
    refine .inr ⟨?_, rfl⟩
    rintro ⟨kept, rest, rfl, hkept, hcut⟩
    obtain ⟨pos, more, htail, -⟩ := slugTail_some (kept.reverse ++ [])
      [(1, (kept ++ rest).take ((kept ++ rest).length - rest.length))] hcut
    have hrest : slugRest (kept ++ rest) ⟨kept.reverse ++ [], rest⟩ [] ≠ none := by
      rw [slugRest, htail]
      simp
    rw [slugCut_exec] at hrun
    exact Regex.upTo_ne_none maxSlugLength kept [] rest hkept (fun _ _ => rfl) hrest hrun
  | some result =>
    rw [slugCut_exec] at hrun
    obtain ⟨kept, rest, hslug, hkept, htail⟩ := Regex.upTo_eq_some maxSlugLength [] slug hrun
    have hcut : CutsBefore rest := by
      by_contra hcut
      rw [slugRest, slugTail_none _ _ hcut] at htail
      cases htail
    have htake : slug.take (slug.length - rest.length) = kept := by
      rw [hslug, List.length_append, Nat.add_sub_cancel, List.take_left]
    obtain ⟨pos, more, hsome, hlookup⟩ := slugTail_some (kept.reverse ++ []) [(1, kept)] hcut
    rw [slugRest, htake, hsome] at htail
    obtain rfl := Option.some.inj htail
    have hcapture : List.lookup 1 (more ++ [(1, kept)]) = some kept := by
      rw [List.lookup_append, hlookup]
      rfl
    refine .inl ⟨⟨kept, rest, hslug, hkept, hcut⟩, ?_⟩
    simp only [Option.bind_eq_bind, Option.bind_some, hcapture, Option.getD_some]
    exact ⟨hkept, rest, hslug.symm⟩

/-- It can be cut when it is short, or has a hyphen among its first characters. -/
theorem cuttable_iff (slug : Text) :
    Cuttable slug ↔ slug.length ≤ maxSlugLength ∨ 45 ∈ slug.take (maxSlugLength + 1) := by
  constructor
  · rintro ⟨kept, rest, rfl, hkept, rfl | hhyphen⟩
    · exact .inl (by simpa using hkept)
    · obtain ⟨rest, rfl⟩ := List.head?_eq_some_iff.mp hhyphen
      refine .inr (List.mem_take_iff_getElem.mpr ⟨kept.length, ?_, by simp⟩)
      rw [List.length_append, List.length_cons]
      omega
  · rintro (hshort | hhyphen)
    · exact ⟨slug, [], (List.append_nil slug).symm, hshort, .inl rfl⟩
    · obtain ⟨kept, rest, hsplit⟩ := List.append_of_mem hhyphen
      have hlength := congrArg List.length hsplit
      rw [List.length_take, List.length_append, List.length_cons] at hlength
      refine ⟨kept, 45 :: rest ++ slug.drop (maxSlugLength + 1), ?_, by omega, .inr rfl⟩
      rw [← List.append_assoc, ← hsplit, List.take_append_drop]

instance (slug : Text) : Decidable (Cuttable slug) := decidable_of_iff _ (cuttable_iff slug).symm

/-! ### The slug -/

section Slug

variable [Host] [Unicode] {title : Text}

/-- The words of a title, with hyphens between them. -/
def slugWords (title : Text) : Text :=
  trimHyphens (hyphenate false (Host.toLowerCase (Unicode.nfkd title)))

theorem slugify_length_le (h : Cuttable (slugWords title)) :
    (slugify title).length ≤ maxSlugLength := by
  have hcut : (cutSlug (slugWords title)).length ≤ maxSlugLength := by
    rcases cutSlug_cases (slugWords title) with ⟨-, hlength, -⟩ | ⟨huncut, -⟩
    · exact hlength
    · exact absurd h huncut
  have htrim := (List.rdropWhile_prefix (· = 45) (l := cutSlug (slugWords title))).length_le
  unfold slugify
  dsimp only
  split
  · decide
  · exact htrim.trans hcut

/-- Where no place to cut is within the limit, the slug is all of the words. -/
theorem slugify_uncut (h : ¬ Cuttable (slugWords title)) : slugify title = slugWords title := by
  have hcut : cutSlug (slugWords title) = slugWords title := by
    rcases cutSlug_cases (slugWords title) with ⟨hcuttable, -⟩ | ⟨-, huncut⟩
    · exact absurd hcuttable h
    · exact huncut
  have hwords : trimHyphensEnd (cutSlug (slugWords title)) = slugWords title := by
    rw [hcut]
    exact List.rdropWhile_idempotent (· = 45) _
  have hne : slugWords title ≠ [] := by
    intro hnil
    exact h ((cuttable_iff _).mpr (.inl (by simp [hnil])))
  show (if trimHyphensEnd (cutSlug (slugWords title)) = [] then lit "issue"
    else trimHyphensEnd (cutSlug (slugWords title))) = slugWords title
  rw [hwords, if_neg hne]

theorem length_branchName (issue : ℕ) (title : Text) :
    (branchName issue title).length = 13 + (decimal issue).length + (slugify title).length := by
  have hlead : (lit "agent/issue-").length = 12 := by decide
  have hhyphen : (lit "-").length = 1 := by decide
  unfold branchName
  rw [List.length_append, List.length_append, List.length_append, hlead, hhyphen]
  omega

/-- When the name of a branch is no longer than the journal accepts. -/
theorem branchName_length_le_iff {issue : ℕ} (hissue : issue < 10 ^ 16) (title : Text) :
    (branchName issue title).length ≤ 255 ↔
      Cuttable (slugWords title) ∨ (slugWords title).length + (decimal issue).length ≤ 242 := by
  have hdigits := length_decimal_le (by decide) hissue
  rw [length_branchName]
  by_cases h : Cuttable (slugWords title)
  · have hslug : (slugify title).length ≤ 40 := slugify_length_le h
    simp only [h, true_or, iff_true]
    omega
  · rw [slugify_uncut h]
    simp only [h, false_or]
    omega

end Slug

end Newsdeck.Runner

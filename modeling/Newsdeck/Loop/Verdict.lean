import Mathlib.Data.Multiset.Lattice
import Mathlib.Order.Lattice.Nat
import Newsdeck.Loop.Aggregate

/-!
# The aggregate is its strictest review

The statuses are ordered by how much they hold a pull request back.  Each review has a verdict of
its own, read off its status and its own findings, and once enough reviews arrived the aggregate is
the strictest of these verdicts.  The list of collapsed findings, which depends on which reviewer
came first, does not show in it.

* `strictness_status` — the aggregate is the strictest verdict;
* `aggregateReviews_strictest` — the status rule by rule; neither the order of the reviews nor
  repeated findings change it, and one more review never makes it less strict.
-/

namespace Newsdeck.Loop

open Ecma

/-! ### The strictest verdict -/

/-- How much a status holds the pull request back. -/
def strictness : ReviewStatus → ℕ
  | .approve => 0
  | .requestChanges => 1
  | .blocked => 2

/-- What one review says by itself. -/
def verdict (blockingSeverity : Severity) (review : ReviewResult) : ReviewStatus :=
  if review.status = .blocked then .blocked
  else if review.status = .requestChanges ∨
      ∃ f ∈ review.findings, isAtLeastSeverity f.severity blockingSeverity = true then
    .requestChanges
  else .approve

/-- The strictest of the verdicts; `0` when there is no review. -/
def strictestVerdict (blockingSeverity : Severity) (reviews : List ReviewResult) : ℕ :=
  Multiset.sup (reviews.map fun review => strictness (verdict blockingSeverity review))

theorem strictestVerdict_le_iff {s : Severity} {reviews : List ReviewResult} {bound : ℕ} :
    strictestVerdict s reviews ≤ bound ↔ ∀ r ∈ reviews, strictness (verdict s r) ≤ bound := by
  unfold strictestVerdict
  rw [Multiset.sup_le]
  simp only [Multiset.mem_coe, List.forall_mem_map]

theorem strictness_le (status : ReviewStatus) : strictness status ≤ 2 := by
  cases status <;> decide

theorem verdict_le_one_iff {s : Severity} {r : ReviewResult} :
    strictness (verdict s r) ≤ 1 ↔ r.status ≠ .blocked := by
  unfold verdict
  split
  · simp_all [strictness]
  · split <;> simp_all [strictness]

theorem verdict_le_zero_iff {s : Severity} {r : ReviewResult} :
    strictness (verdict s r) ≤ 0 ↔ r.status = .approve ∧
      ∀ f ∈ r.findings, isAtLeastSeverity f.severity s = false := by
  unfold verdict
  cases hstatus : r.status with
  | blocked => simp [strictness]
  | requestChanges => simp [strictness]
  | approve =>
    simp only [reduceCtorEq, if_false, false_or, true_and]
    split
    · rename_i hraised
      obtain ⟨f, hf, hs⟩ := hraised
      refine iff_of_false (by decide) fun hnone => ?_
      rw [hnone f hf] at hs
      exact absurd hs (by decide)
    · rename_i hraised
      refine iff_of_true (by decide) fun f hf => ?_
      by_contra hs
      exact hraised ⟨f, hf, by simpa using hs⟩

/-! ### The aggregate -/

variable [Host]

/-- **The aggregate is the strictest verdict**, once enough reviews arrived. -/
theorem strictness_status {input : AggregateInput}
    (henough : input.required ≤ input.reviews.length) :
    strictness (aggregateReviews input).status =
      strictestVerdict input.blockingSeverity input.reviews := by
  -- the two sides have the same upper bounds, and only 0, 1 and 2 tell them apart
  apply eq_of_forall_ge_iff
  intro bound
  rw [strictestVerdict_le_iff]
  obtain rfl | rfl | hbound : bound = 0 ∨ bound = 1 ∨ 2 ≤ bound := by omega
  · simp only [verdict_le_zero_iff]
    have hzero : strictness (aggregateReviews input).status ≤ 0 ↔
        (aggregateReviews input).status = .approve := by
      cases (aggregateReviews input).status <;> simp [strictness]
    rw [hzero, aggregate_approve_iff]
    exact and_iff_right henough
  · simp only [verdict_le_one_iff]
    rw [aggregateReviews_status]
    by_cases hblocked : ∃ r ∈ input.reviews, r.status = .blocked
    · rw [if_pos (.inr hblocked)]
      obtain ⟨r, hr, hs⟩ := hblocked
      simp only [strictness, Nat.reduceLeDiff, false_iff]
      exact fun hnone => hnone r hr hs
    · rw [if_neg (by simp [hblocked, Nat.not_lt.mpr henough])]
      refine iff_of_true ?_ fun r hr hs => hblocked ⟨r, hr, hs⟩
      split <;> decide
  · have := strictness_le (aggregateReviews input).status
    exact iff_of_true (this.trans hbound) fun r _ => (strictness_le _).trans hbound

/-! ### Repeated findings -/

/-- The first finding repeats the second: both collapse under one key, and it is no more severe. -/
def Repeats (f g : Finding) : Prop :=
  dedupeKey f = dedupeKey g ∧ severityOrder f.severity ≤ severityOrder g.severity

/-- Some review raised the finding. -/
def Raised (reviews : List ReviewResult) (f : Finding) : Prop :=
  ∃ r ∈ reviews, f ∈ r.findings

/-- The reviews reach the same statuses, and what either list raised repeats a finding of the
other. -/
structure SameUpToRepeats (reviews others : List ReviewResult) : Prop where
  statuses : reviews.map ReviewResult.status = others.map ReviewResult.status
  forth : ∀ f, Raised reviews f → ∃ g, Raised others g ∧ Repeats f g
  back : ∀ f, Raised others f → ∃ g, Raised reviews g ∧ Repeats f g

theorem exists_raised_of_repeats {reviews others : List ReviewResult} {s : Severity}
    (hrepeats : ∀ f, Raised reviews f → ∃ g, Raised others g ∧ Repeats f g)
    (h : ∃ r ∈ reviews, ∃ f ∈ r.findings, isAtLeastSeverity f.severity s = true) :
    ∃ r ∈ others, ∃ f ∈ r.findings, isAtLeastSeverity f.severity s = true := by
  obtain ⟨r, hr, f, hf, hs⟩ := h
  obtain ⟨g, ⟨r', hr', hg⟩, -, hsev⟩ := hrepeats f ⟨r, hr, hf⟩
  refine ⟨r', hr', g, hg, isAtLeastSeverity_trans ?_ hs⟩
  simpa [isAtLeastSeverity] using hsev

omit [Host] in
theorem exists_status_iff_mem {reviews : List ReviewResult} {status : ReviewStatus} :
    (∃ r ∈ reviews, r.status = status) ↔ status ∈ reviews.map ReviewResult.status := by
  rw [List.mem_map]

/-- Repeated findings do not change the status. -/
theorem aggregateReviews_status_of_repeats {reviews others : List ReviewResult}
    (h : SameUpToRepeats reviews others) (required : ℕ) (s : Severity) :
    (aggregateReviews ⟨others, required, s⟩).status =
      (aggregateReviews ⟨reviews, required, s⟩).status := by
  have hlength : others.length = reviews.length := by
    have := congrArg List.length h.statuses
    simpa using this.symm
  have hraised : (∃ r ∈ others, ∃ f ∈ r.findings, isAtLeastSeverity f.severity s = true) ↔
      ∃ r ∈ reviews, ∃ f ∈ r.findings, isAtLeastSeverity f.severity s = true :=
    ⟨exists_raised_of_repeats h.back, exists_raised_of_repeats h.forth⟩
  rw [aggregateReviews_status, aggregateReviews_status]
  simp only [exists_status_iff_mem, hlength, hraised, h.statuses]

theorem dedupeKey_of_get?_step {byKey : OrderedMap Text Finding}
    (h : ∀ k g, byKey.get? k = some g → dedupeKey g = k) (f : Finding) :
    ∀ k g, (dedupeStep byKey f).get? k = some g → dedupeKey g = k := by
  have hset : ∀ k g, (byKey.set (dedupeKey f) f).get? k = some g → dedupeKey g = k := by
    intro k g hg
    rw [OrderedMap.get?_set] at hg
    split at hg
    · rename_i hkey
      rw [← Option.some.inj hg, hkey]
    · exact h k g hg
  unfold dedupeStep
  split
  · exact hset
  · split
    · exact hset
    · exact h

/-- The collapsed findings are filed under their own keys. -/
theorem dedupeKey_of_get?_foldl (findings : List Finding) :
    ∀ byKey : OrderedMap Text Finding, (∀ k g, byKey.get? k = some g → dedupeKey g = k) →
      ∀ k g, (findings.foldl dedupeStep byKey).get? k = some g → dedupeKey g = k := by
  induction findings with
  | nil =>
    intro byKey h
    exact h
  | cons f rest ih =>
    intro byKey h
    exact ih (dedupeStep byKey f) (dedupeKey_of_get?_step h f)

/-- Collapsing each reviewer's own findings beforehand leaves out repetitions only. -/
theorem sameUpToRepeats_dedupe (reviews : List ReviewResult) :
    SameUpToRepeats reviews (reviews.map fun r => { r with findings := dedupe r.findings }) where
  statuses := by simp
  forth := by
    rintro f ⟨r, hr, hf⟩
    obtain ⟨g, hget, hsev⟩ := (dedupeInv r.findings).covers f hf
    have hkey := dedupeKey_of_get?_foldl r.findings [] (by simp) _ _ hget
    exact ⟨g, ⟨_, List.mem_map_of_mem hr, OrderedMap.mem_values_of_get? hget⟩, hkey.symm, hsev⟩
  back := by
    rintro f ⟨r', hr', hf⟩
    obtain ⟨r, hr, rfl⟩ := List.mem_map.mp hr'
    exact ⟨f, ⟨r, hr, mem_of_mem_dedupe hf⟩, rfl, le_rfl⟩

/-- A reviewer that repeats itself is read as one that does not. -/
theorem aggregateReviews_status_dedupe (reviews : List ReviewResult) (required : ℕ)
    (s : Severity) :
    (aggregateReviews ⟨reviews.map fun r => { r with findings := dedupe r.findings }, required,
      s⟩).status = (aggregateReviews ⟨reviews, required, s⟩).status :=
  aggregateReviews_status_of_repeats (sameUpToRepeats_dedupe reviews) required s

/-! ### Order, repetition and one more review -/

/-- The order of the reviews does not change the status. -/
theorem aggregateReviews_status_perm {reviews others : List ReviewResult}
    (h : reviews.Perm others) (required : ℕ) (s : Severity) :
    (aggregateReviews ⟨others, required, s⟩).status =
      (aggregateReviews ⟨reviews, required, s⟩).status := by
  rw [aggregateReviews_status, aggregateReviews_status]
  simp only [h.mem_iff, h.length_eq]

/-- One more review, wherever it is put, holds the pull request back at least as much. -/
theorem strictness_status_mono {before after : List ReviewResult} (r : ReviewResult)
    {required : ℕ} (s : Severity) (henough : required ≤ (before ++ after).length) :
    strictness (aggregateReviews ⟨before ++ after, required, s⟩).status ≤
      strictness (aggregateReviews ⟨before ++ r :: after, required, s⟩).status := by
  have hmore : required ≤ (before ++ r :: after).length := by
    simp only [List.length_append, List.length_cons] at henough ⊢
    omega
  rw [strictness_status henough, strictness_status hmore, strictestVerdict_le_iff]
  intro r' hr'
  refine strictestVerdict_le_iff.mp le_rfl r' ?_
  rw [List.mem_append, List.mem_cons]
  rcases List.mem_append.mp hr' with hr' | hr'
  · exact .inl hr'
  · exact .inr (.inr hr')

/-- **The strictest review decides.**  Whatever the reviews, the number of them asked for and the
blocking severity: the status follows the three rules on what each reviewer said, it changes
neither with the order of the reviews nor with repeated findings, and once enough reviews are in,
one more of them never loosens it. -/
theorem aggregateReviews_strictest (reviews : List ReviewResult) (required : ℕ)
    (blockingSeverity : Severity) :
    (aggregateReviews ⟨reviews, required, blockingSeverity⟩).status =
        (if reviews.length < required ∨ ∃ r ∈ reviews, r.status = .blocked then .blocked
        else if (∃ r ∈ reviews, r.status = .requestChanges) ∨ ∃ r ∈ reviews, ∃ f ∈ r.findings,
            isAtLeastSeverity f.severity blockingSeverity = true then .requestChanges
        else .approve) ∧
      (∀ others, reviews.Perm others →
        (aggregateReviews ⟨others, required, blockingSeverity⟩).status =
          (aggregateReviews ⟨reviews, required, blockingSeverity⟩).status) ∧
      (∀ others, SameUpToRepeats reviews others →
        (aggregateReviews ⟨others, required, blockingSeverity⟩).status =
          (aggregateReviews ⟨reviews, required, blockingSeverity⟩).status) ∧
      ∀ before after r, reviews = before ++ after → required ≤ reviews.length →
        strictness (aggregateReviews ⟨reviews, required, blockingSeverity⟩).status ≤
          strictness (aggregateReviews ⟨before ++ r :: after, required,
            blockingSeverity⟩).status := by
  refine ⟨aggregateReviews_status _, ?_, ?_, ?_⟩
  · intro others hperm
    exact aggregateReviews_status_perm hperm required blockingSeverity
  · intro others hrepeats
    exact aggregateReviews_status_of_repeats hrepeats required blockingSeverity
  · rintro before after r rfl henough
    exact strictness_status_mono r blockingSeverity henough

/-- A finding as one reviewer words it. -/
def unchecked (severity : Severity) : Finding :=
  ⟨severity, some (lit "a.ts"), some 3, lit "Unchecked", lit "Check", lit "agent", lit "review"⟩

/-- Two reviewers raise the same finding, one of them as a remark. -/
def pairOfReviews : List ReviewResult :=
  [⟨.approve, [unchecked .info], lit "Fine"⟩, ⟨.approve, [unchecked .high], lit "Careful"⟩]

/-- The same two reviews without the remark. -/
def pairWithoutRemark : List ReviewResult :=
  [⟨.approve, [], lit "Fine"⟩, ⟨.approve, [unchecked .high], lit "Careful"⟩]

theorem pairWithoutRemark_repeats : SameUpToRepeats pairOfReviews pairWithoutRemark where
  statuses := rfl
  forth := by
    rintro f ⟨r, hr, hf⟩
    have hhigh : Raised pairWithoutRemark (unchecked .high) := by
      refine ⟨_, List.mem_cons_of_mem _ (List.mem_singleton.mpr rfl), ?_⟩
      exact List.mem_singleton.mpr rfl
    refine ⟨unchecked .high, hhigh, ?_⟩
    rcases List.mem_cons.mp hr with rfl | hr
    · rw [List.mem_singleton.mp hf]
      exact ⟨rfl, by decide⟩
    · rw [List.mem_singleton.mp hr] at hf
      rw [List.mem_singleton.mp hf]
      exact ⟨rfl, le_rfl⟩
  back := by
    rintro f ⟨r, hr, hf⟩
    rcases List.mem_cons.mp hr with rfl | hr
    · exact absurd hf List.not_mem_nil
    · exact ⟨f, ⟨r, List.mem_cons_of_mem _ hr, hf⟩, rfl, le_rfl⟩

omit [Host] in
/-- The two ask for changes, in either order and without the repeated remark, and a third review
does not loosen that. -/
theorem aggregateReviews_strictest_pair :
    (@aggregateReviews asciiHost ⟨pairOfReviews, 2, .high⟩).status = .requestChanges ∧
      (@aggregateReviews asciiHost ⟨pairOfReviews.reverse, 2, .high⟩).status =
        (@aggregateReviews asciiHost ⟨pairOfReviews, 2, .high⟩).status ∧
      (@aggregateReviews asciiHost ⟨pairWithoutRemark, 2, .high⟩).status =
        (@aggregateReviews asciiHost ⟨pairOfReviews, 2, .high⟩).status ∧
      strictness (@aggregateReviews asciiHost ⟨pairOfReviews, 2, .high⟩).status ≤
        strictness (@aggregateReviews asciiHost
          ⟨pairOfReviews ++ [⟨.approve, [], lit "Fine"⟩], 2, .high⟩).status := by
  obtain ⟨-, hperm, hrepeats, hmore⟩ :=
    @aggregateReviews_strictest asciiHost pairOfReviews 2 .high
  refine ⟨by decide +kernel, hperm _ (List.reverse_perm _).symm, ?_, ?_⟩
  · exact hrepeats _ (@pairWithoutRemark_repeats asciiHost)
  · exact hmore pairOfReviews [] _ (List.append_nil _).symm (by decide)

end Newsdeck.Loop

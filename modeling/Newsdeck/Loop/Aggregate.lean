import Newsdeck.Ecma.OrderedMap
import Newsdeck.Loop.Review

/-!
# Combining independent reviews

`aggregateReviews` reduces the reviews of one pull request to one status, in the strict direction:
too few of them or one `blocked` blocks, one request for changes or one finding at the blocking
severity requests changes, and only what is left approves.

* `dedupe_exists_iff` — collapsing duplicate findings neither hides a severity nor invents one;
* `aggregateReviews_status` — the status, rule by rule;
* `aggregate_approve_iff` — the status `approve` on the reviews themselves, without the collapsed
  list of findings.  It is monotone in both policy parameters (`aggregate_approve_mono`).
-/

namespace Newsdeck.Loop

open Ecma

variable [Host]

structure AggregateInput where
  reviews : List ReviewResult
  required : ℕ
  blockingSeverity : Severity

structure AggregateOutcome where
  status : ReviewStatus
  findings : List Finding
  summary : Text
  received : ℕ
  required : ℕ
  unanimous : Bool
  reasons : List Text

/-- `A`, `B`, `C`… so a summary names which reviewer said what. -/
def letter (index : ℕ) : Text := [65 + index % 26]

/-! ### Collapsing duplicates -/

/-- What makes two findings the same one. -/
def dedupeKey (finding : Finding) : Text :=
  finding.file.getD [] ++ lit ":" ++ (finding.line.map decimal).getD [] ++ lit ":" ++
    Host.toLowerCase finding.description

/-- One round of the loop: keep the higher severity of two duplicates. -/
def dedupeStep (byKey : OrderedMap Text Finding) (finding : Finding) : OrderedMap Text Finding :=
  match byKey.get? (dedupeKey finding) with
  | none => byKey.set (dedupeKey finding) finding
  | some existing =>
      if severityOrder finding.severity > severityOrder existing.severity then
        byKey.set (dedupeKey finding) finding
      else byKey

/-- Collapse findings two reviewers both raised. -/
def dedupe (findings : List Finding) : List Finding :=
  (findings.foldl dedupeStep []).values

/-! ### The aggregate -/

/-- The summaries, each under its reviewer's letter. -/
def joinSummaries (reviews : List ReviewResult) : Text :=
  join (lit "\n\n") (reviews.mapIdx fun index review =>
    lit "Reviewer " ++ letter index ++ lit ": " ++ review.summary)

/-- Reduce the independent reviews to one status. -/
def aggregateReviews (input : AggregateInput) : AggregateOutcome :=
  let findings := dedupe (input.reviews.flatMap ReviewResult.findings)
  let summary := joinSummaries input.reviews
  let received := input.reviews.length
  let statuses := input.reviews.map ReviewResult.status
  let unanimous := received > 0 && statuses.all fun status => statuses.head? = some status
  let outcome (status : ReviewStatus) (summary : Text) (reasons : List Text) : AggregateOutcome :=
    ⟨status, findings, summary, received, input.required, unanimous, reasons⟩
  if received < input.required then
    outcome .blocked
      (if summary = [] then lit "No reviewer produced a usable result."
        else summary ++ lit "\n\nNot enough independent reviews to decide.")
      [lit "only " ++ decimal received ++ lit " of " ++ decimal input.required ++
        lit " required independent review(s) produced a usable result"]
  else
    let blockedBy := statuses.count .blocked
    if blockedBy > 0 then
      outcome .blocked summary [decimal blockedBy ++ lit " reviewer(s) reported `blocked`"]
    else
      let blocking := blockingFindings findings input.blockingSeverity
      let changesRequested := statuses.count .requestChanges
      let reasons :=
        (if changesRequested > 0 then
          [decimal changesRequested ++ lit " of " ++ decimal received ++
            lit " reviewer(s) requested changes"]
        else []) ++
        (if blocking.length > 0 then
          [decimal blocking.length ++ lit " finding(s) at or above `" ++
            severityText input.blockingSeverity ++ lit "` severity"]
        else [])
      if changesRequested > 0 ∨ blocking.length > 0 then outcome .requestChanges summary reasons
      else
        outcome .approve summary (reasons ++
          [if received = 1 then lit "the reviewer approved with no blocking findings"
            else lit "all " ++ decimal received ++
              lit " independent reviewers approved with no blocking findings"])

/-! ### Collapsing keeps the severities -/

/-- What the map holds after some findings: one of them for each key, of at least the severity of
every finding with that key. -/
structure DedupeInv (seen : List Finding) (byKey : OrderedMap Text Finding) : Prop where
  sub : ∀ f ∈ byKey.values, f ∈ seen
  covers : ∀ f ∈ seen, ∃ g, byKey.get? (dedupeKey f) = some g ∧
    severityOrder f.severity ≤ severityOrder g.severity

theorem dedupeInv_step {seen : List Finding} {byKey : OrderedMap Text Finding}
    (h : DedupeInv seen byKey) (f : Finding) : DedupeInv (seen ++ [f]) (dedupeStep byKey f) := by
  have hset : (∀ g, byKey.get? (dedupeKey f) = some g →
      severityOrder g.severity ≤ severityOrder f.severity) →
      DedupeInv (seen ++ [f]) (byKey.set (dedupeKey f) f) := by
    intro hle
    refine ⟨fun g hg => ?_, fun g hg => ?_⟩
    · rcases OrderedMap.mem_values_set hg with rfl | hg
      · simp
      · exact List.mem_append_left _ (h.sub g hg)
    · rw [OrderedMap.get?_set]
      rcases List.mem_append.mp hg with hg | hg
      · obtain ⟨g', hget, hsev⟩ := h.covers g hg
        split
        · rename_i hkey
          rw [hkey] at hget
          exact ⟨f, rfl, hsev.trans (hle g' hget)⟩
        · exact ⟨g', hget, hsev⟩
      · rw [List.mem_singleton.mp hg]
        exact ⟨f, by simp, le_rfl⟩
  unfold dedupeStep
  split
  · rename_i hnone
    exact hset fun g hg => by simp [hnone] at hg
  · rename_i existing hsome
    split
    · rename_i hgt
      refine hset fun g hg => ?_
      rw [hsome, Option.some.injEq] at hg
      rw [← hg]
      omega
    · rename_i hle
      refine ⟨fun g hg => List.mem_append_left _ (h.sub g hg), fun g hg => ?_⟩
      rcases List.mem_append.mp hg with hg | hg
      · exact h.covers g hg
      · rw [List.mem_singleton.mp hg]
        exact ⟨existing, hsome, by omega⟩

theorem dedupeInv_foldl (rest : List Finding) :
    ∀ (seen : List Finding) (byKey : OrderedMap Text Finding), DedupeInv seen byKey →
      DedupeInv (seen ++ rest) (rest.foldl dedupeStep byKey) := by
  induction rest with
  | nil => intro seen byKey h; simpa using h
  | cons f rest ih =>
    intro seen byKey h
    have := ih (seen ++ [f]) (dedupeStep byKey f) (dedupeInv_step h f)
    simpa using this

theorem dedupeInv (findings : List Finding) :
    DedupeInv findings (findings.foldl dedupeStep []) := by
  have := dedupeInv_foldl findings [] [] ⟨by simp [OrderedMap.values], by simp⟩
  simpa using this

theorem mem_of_mem_dedupe {findings : List Finding} {f : Finding} (h : f ∈ dedupe findings) :
    f ∈ findings := (dedupeInv findings).sub f h

/-- **Collapsing keeps the severities.**  Some finding reaches a severity before collapsing exactly
when one does afterwards. -/
theorem dedupe_exists_iff (findings : List Finding) (s : Severity) :
    (∃ f ∈ dedupe findings, isAtLeastSeverity f.severity s = true) ↔
      ∃ f ∈ findings, isAtLeastSeverity f.severity s = true := by
  have inv := dedupeInv findings
  constructor
  · rintro ⟨f, hf, hs⟩
    exact ⟨f, mem_of_mem_dedupe hf, hs⟩
  · rintro ⟨f, hf, hs⟩
    obtain ⟨g, hget, hsev⟩ := inv.covers f hf
    refine ⟨g, OrderedMap.mem_values_of_get? hget, isAtLeastSeverity_trans ?_ hs⟩
    simpa [isAtLeastSeverity] using hsev

theorem blocking_dedupe_pos_iff (findings : List Finding) (s : Severity) :
    (blockingFindings (dedupe findings) s).length > 0 ↔
      ∃ f ∈ findings, isAtLeastSeverity f.severity s = true := by
  rw [gt_iff_lt, List.length_pos_iff_exists_mem, ← dedupe_exists_iff]
  simp only [mem_blockingFindings]

/-! ### The status -/

theorem aggregateReviews_findings (input : AggregateInput) :
    (aggregateReviews input).findings = dedupe (input.reviews.flatMap ReviewResult.findings) := by
  unfold aggregateReviews
  dsimp only
  repeat' split
  all_goals rfl

/-- The status, rule by rule. -/
theorem aggregateReviews_status (input : AggregateInput) :
    (aggregateReviews input).status =
      if input.reviews.length < input.required ∨ ∃ r ∈ input.reviews, r.status = .blocked then
        .blocked
      else if (∃ r ∈ input.reviews, r.status = .requestChanges) ∨
          ∃ r ∈ input.reviews, ∃ f ∈ r.findings,
            isAtLeastSeverity f.severity input.blockingSeverity = true then .requestChanges
      else .approve := by
  have hblocked : (input.reviews.map ReviewResult.status).count .blocked > 0 ↔
      ∃ r ∈ input.reviews, r.status = .blocked := by
    rw [gt_iff_lt, List.count_pos_iff, List.mem_map]
  have hchanges : (input.reviews.map ReviewResult.status).count .requestChanges > 0 ↔
      ∃ r ∈ input.reviews, r.status = .requestChanges := by
    rw [gt_iff_lt, List.count_pos_iff, List.mem_map]
  have hfindings : (blockingFindings (dedupe (input.reviews.flatMap ReviewResult.findings))
      input.blockingSeverity).length > 0 ↔ ∃ r ∈ input.reviews, ∃ f ∈ r.findings,
        isAtLeastSeverity f.severity input.blockingSeverity = true := by
    rw [blocking_dedupe_pos_iff]
    simp only [List.mem_flatMap]
    constructor
    · rintro ⟨f, ⟨r, hr, hf⟩, hs⟩
      exact ⟨r, hr, f, hf, hs⟩
    · rintro ⟨r, hr, f, hf, hs⟩
      exact ⟨f, ⟨r, hr, hf⟩, hs⟩
  unfold aggregateReviews
  simp only [hblocked, hchanges, hfindings]
  by_cases hshort : input.reviews.length < input.required
  · simp only [hshort, if_true, true_or]
  · by_cases hb : ∃ r ∈ input.reviews, r.status = .blocked
    · simp only [hshort, hb, if_false, if_true, or_true]
    · simp only [hshort, hb, if_false, or_self]
      split <;> rfl

/-- **When the aggregate approves.**  Enough reviews arrived, every one of them approves, and none
raised a finding at the blocking severity. -/
theorem aggregate_approve_iff (input : AggregateInput) :
    (aggregateReviews input).status = .approve ↔
      input.required ≤ input.reviews.length ∧ ∀ r ∈ input.reviews, r.status = .approve ∧
        ∀ f ∈ r.findings, isAtLeastSeverity f.severity input.blockingSeverity = false := by
  rw [aggregateReviews_status]
  constructor
  · intro h
    split at h
    · exact absurd h (by decide)
    · rename_i hblocked
      split at h
      · exact absurd h (by decide)
      · rename_i hchanges
        refine ⟨by omega, fun r hr => ⟨?_, fun f hf => ?_⟩⟩
        · cases hs : r.status with
          | approve => rfl
          | requestChanges => exact absurd (.inl ⟨r, hr, hs⟩) hchanges
          | blocked => exact absurd (.inr ⟨r, hr, hs⟩) hblocked
        · by_contra hsev
          exact hchanges (.inr ⟨r, hr, f, hf, by simpa using hsev⟩)
  · rintro ⟨hlen, hall⟩
    rw [if_neg, if_neg]
    · rintro (⟨r, hr, hs⟩ | ⟨r, hr, f, hf, hs⟩)
      · rw [(hall r hr).1] at hs
        exact absurd hs (by decide)
      · rw [(hall r hr).2 f hf] at hs
        exact absurd hs (by decide)
    · rintro (hshort | ⟨r, hr, hs⟩)
      · omega
      · rw [(hall r hr).1] at hs
        exact absurd hs (by decide)

/-- **Approval is monotone.**  Asking for fewer reviews and raising the blocking severity can only
turn other verdicts into approvals. -/
theorem aggregate_approve_mono {reviews : List ReviewResult} {strict lax : ℕ} {lower higher : Severity}
    (hcount : lax ≤ strict) (hsev : isAtLeastSeverity higher lower = true)
    (h : (aggregateReviews ⟨reviews, strict, lower⟩).status = .approve) :
    (aggregateReviews ⟨reviews, lax, higher⟩).status = .approve := by
  rw [aggregate_approve_iff] at h ⊢
  refine ⟨hcount.trans h.1, fun r hr => ⟨(h.2 r hr).1, fun f hf => ?_⟩⟩
  by_contra hf'
  have := isAtLeastSeverity_trans (by simpa using hf') hsev
  rw [(h.2 r hr).2 f hf] at this
  exact absurd this (by decide)

end Newsdeck.Loop

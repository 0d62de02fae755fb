import Newsdeck.Loop.EvaluatePr

/-!
# Nothing unreviewed is merged

From the text of the agents to the decision: a finding of the deterministic checks rides on the first
review, an output that is missing or not valid stands for a review that blocks, and a review too few is
counted as one.

* `roundReviews_blocked` — an unusable output blocks;
* `roundReviews_deterministic` — the findings of the checks are among those of the first review;
* `unreviewed_not_merged` — the gate merges none of them.
-/

namespace Newsdeck.Loop

open Ecma

section Outputs

variable [Complaints]

/-- The agent wrote a valid review. -/
def Usable (output : Option Text) : Prop := ∃ text, output = some text ∧ (parseReviewText text).ok = true

theorem parseReviewResult_blocked {raw : Json} (h : (parseReviewResult raw).ok ≠ true) :
    (parseReviewResult raw).result.status = .blocked := by
  unfold parseReviewResult at h ⊢
  split
  · rfl
  · rename_i hresult
    simp [hresult] at h

theorem parseReviewText_blocked {text : Text} (h : (parseReviewText text).ok ≠ true) :
    (parseReviewText text).result.status = .blocked := by
  unfold parseReviewText at h ⊢
  dsimp only at h ⊢
  split
  · rfl
  · rename_i raw hraw
    rw [hraw] at h
    exact parseReviewResult_blocked h

theorem agentReview_blocked {output : Option Text} (h : ¬ Usable output) :
    (agentReview output).status = .blocked := by
  cases output with
  | none => rfl
  | some text => exact parseReviewText_blocked fun hok => h ⟨text, rfl, hok⟩

theorem agentReviews_ne_nil (outputs : List (Option Text)) : agentReviews outputs ≠ [] := by
  unfold agentReviews
  split
  · simp
  · rename_i hsome
    simpa using hsome

variable [Host]

/-- The review in a place is the agent's, with the deterministic findings when it is the first. -/
theorem roundReviews_status {outputs : List (Option Text)} {diff : PullRequestDiff}
    {blockingSeverity : Severity} (review : ReviewResult) (hreview : review ∈ agentReviews outputs)
    (hblocked : review.status = .blocked) :
    ∃ r ∈ roundReviews outputs diff blockingSeverity, r.status = .blocked := by
  obtain ⟨index, hindex, rfl⟩ := List.getElem_of_mem hreview
  refine ⟨_, List.mem_mapIdx.mpr ⟨index, hindex, rfl⟩, ?_⟩
  split
  · simp [mergeReview, hblocked]
  · exact hblocked

theorem roundReviews_blocked {outputs : List (Option Text)} {diff : PullRequestDiff}
    {blockingSeverity : Severity} (h : outputs = [] ∨ ∃ output ∈ outputs, ¬ Usable output) :
    ∃ r ∈ roundReviews outputs diff blockingSeverity, r.status = .blocked := by
  rcases h with rfl | ⟨output, houtput, hunusable⟩
  · exact roundReviews_status (unavailableReview _) (List.mem_singleton.mpr rfl) rfl
  · refine roundReviews_status (agentReview output) ?_ (agentReview_blocked hunusable)
    unfold agentReviews
    rw [if_neg (by simpa using List.ne_nil_of_mem houtput)]
    exact List.mem_map_of_mem houtput

theorem roundReviews_deterministic {outputs : List (Option Text)} {diff : PullRequestDiff}
    {blockingSeverity : Severity} {f : Finding} (h : f ∈ runDeterministicChecks diff) :
    ∃ r ∈ roundReviews outputs diff blockingSeverity, f ∈ r.findings := by
  have hfirst : 0 < (agentReviews outputs).length :=
    List.length_pos_iff.mpr (agentReviews_ne_nil outputs)
  refine ⟨_, List.mem_mapIdx.mpr ⟨0, hfirst, rfl⟩, ?_⟩
  rw [if_pos rfl]
  exact List.mem_append_left _ h

/-- There is no review for every output when there is none at all, and one for each otherwise. -/
theorem roundReviews_length {outputs : List (Option Text)} {diff : PullRequestDiff}
    {blockingSeverity : Severity} (h : outputs ≠ []) :
    (roundReviews outputs diff blockingSeverity).length = outputs.length := by
  unfold roundReviews agentReviews
  rw [if_neg (by simpa using h), List.length_mapIdx, List.length_map]

/-- The checks found something that blocks, an output is unusable, or there are too few. -/
def Unreviewed (outputs : List (Option Text)) (diff : PullRequestDiff) (context : GateInput) : Prop :=
  (∃ f ∈ runDeterministicChecks diff, isAtLeastSeverity f.severity context.blockingSeverity = true) ∨
    (∃ output ∈ outputs, ¬ Usable output) ∨ outputs.length < context.requiredReviewers

/-- **Fail closed.**  Whatever the agents wrote and whatever else the gate is told, a change with a
blocking finding of the checks, an unusable output or too few outputs is not merged; and so it is in
every round of the evaluator. -/
theorem unreviewed_not_merged (outputs : List (Option Text)) (diff : PullRequestDiff) :
    (∀ context : GateInput, Unreviewed outputs diff context →
      (decideMerge { context with
        reviews := roundReviews outputs diff context.blockingSeverity }).decision ≠ .autoMerge) ∧
    ∀ (round : Round) (facts : RoundFacts) (previous : LoopState), round.facts = some facts →
      round.reviewOutputs = outputs → parseUnifiedDiff round.diff = diff →
      Unreviewed outputs diff (facts.gateInput previous) →
      (facts.outcome previous).decision ≠ .autoMerge := by
  have hgate : ∀ input : GateInput,
      input.reviews = roundReviews outputs diff input.blockingSeverity →
      Unreviewed outputs diff input → (decideMerge input).decision ≠ .autoMerge := by
    intro input hreviews hunreviewed hmerges
    have hclear := (decideMerge_autoMerge_iff input).mp hmerges
    have hnone : ¬ ∃ r ∈ roundReviews outputs diff input.blockingSeverity, r.status = .blocked := by
      rintro ⟨r, hr, hblocked⟩
      have happroves := (hclear.approved r (hreviews ▸ hr)).1
      rw [hblocked] at happroves
      cases happroves
    rcases hunreviewed with ⟨f, hf, hsevere⟩ | hunusable | hfew
    · obtain ⟨r, hr, hmem⟩ := roundReviews_deterministic hf
      rw [(hclear.approved r (hreviews ▸ hr)).2 f hmem] at hsevere
      cases hsevere
    · exact hnone (roundReviews_blocked (.inr hunusable))
    · by_cases hempty : outputs = []
      · exact hnone (roundReviews_blocked (.inl hempty))
      · have henough := hclear.enoughReviews
        rw [hreviews, roundReviews_length hempty] at henough
        omega
  refine ⟨fun context hunreviewed => hgate _ rfl hunreviewed, ?_⟩
  rintro round facts previous hfacts rfl rfl hunreviewed
  refine hgate (facts.gateInput previous) ?_ hunreviewed
  unfold Round.facts at hfacts
  simp only [Option.bind_eq_bind, Option.bind_eq_some_iff, Option.some.injEq] at hfacts
  obtain ⟨policy, -, context, -, proposed, -, risk, -, rfl⟩ := hfacts
  rfl

end Outputs

end Newsdeck.Loop

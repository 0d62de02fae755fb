import Newsdeck.Library.Chains
import Newsdeck.Loop.Protections

/-!
# The steps of a tier and of those it inherits

`stepsForRisk` follows `inherits` upwards and guards against a tier that inherits itself, and
against nothing else.

* `collect_returns`, `acc_of_collect` — it returns exactly where following `inherits` comes to an
  end;
* `Cumulative` — each step once, those of an inherited tier before all others;
* `stepsForRisk_cumulative` — so it is exactly where no tier inherits itself through another.
-/

namespace Newsdeck.Loop

open Ecma

section Collect

variable {policy : LoopPolicy} {level : RiskLevel} {acc steps : List TierStep}

/-- Where `inherits` comes to an end, the recursion returns. -/
theorem collect_returns (h : Acc (flip (Parent policy)) level) (acc : List TierStep) :
    ∃ depth steps, collect policy depth level acc = some steps := by
  induction h with
  | intro level _ ih =>
    by_cases hparent : ∃ parent, Parent policy level parent
    · obtain ⟨parent, hparent⟩ := hparent
      obtain ⟨depth, inherited, hcollect⟩ := ih parent hparent
      exact ⟨depth + 1, _, by rw [collect_below hparent, hcollect, Option.map_some]⟩
    · exact ⟨1, _, collect_top hparent 0 acc⟩

/-- Where the recursion returns, `inherits` comes to an end. -/
theorem acc_of_collect (depth : ℕ) : ∀ (level : RiskLevel) (acc steps : List TierStep),
    collect policy depth level acc = some steps → Acc (flip (Parent policy)) level := by
  induction depth with
  | zero =>
    intro level acc steps h
    simp [collect] at h
  | succ depth ih =>
    intro level acc steps h
    refine .intro level fun parent hparent => ?_
    rw [collect_below hparent] at h
    obtain ⟨inherited, hcollect, -⟩ := Option.map_eq_some_iff.mp h
    exact ih parent acc inherited hcollect

/-! ### What is collected -/

/-- A tier's own steps come after those that were there, each name once. -/
theorem addSteps_spec (own : List TierStep) : ∀ acc : List TierStep, (stepNames acc).Nodup →
    ∃ added, addSteps acc own = acc ++ added ∧ added ⊆ own ∧ (stepNames (acc ++ added)).Nodup := by
  induction own with
  | nil => exact fun acc h => ⟨[], by simp [addSteps], List.nil_subset _, by simpa using h⟩
  | cons step own ih =>
    intro acc h
    unfold addSteps
    split
    · obtain ⟨added, hadded, hsubset, hnodup⟩ := ih acc h
      exact ⟨added, hadded, List.subset_cons_of_subset _ hsubset, hnodup⟩
    · rename_i hnew
      have hnodup : (stepNames (acc ++ [step])).Nodup := by
        unfold stepNames
        rw [List.map_append, List.map_singleton]
        exact List.nodup_append.mpr ⟨h, List.nodup_singleton _, fun a ha b hb heq =>
          hnew (List.mem_singleton.mp hb ▸ heq ▸ ha)⟩
      obtain ⟨added, hadded, hsubset, hadds⟩ := ih _ hnodup
      refine ⟨step :: added, ?_, List.cons_subset_cons _ hsubset, ?_⟩
      · rw [hadded, List.append_assoc, List.singleton_append]
      · rwa [List.append_assoc, List.singleton_append] at hadds

/-- A tier that the level inherits, or its own, has a step of the name. -/
def Demanded (policy : LoopPolicy) (level : RiskLevel) (name : Text) : Prop :=
  ∃ tier, Inherits policy level tier ∧ name ∈ stepNames (policy.tiers.tier tier).steps

/-- The steps of a risk level: each name that a tier demands once, and those that an inherited tier
demands before all others. -/
structure Cumulative (policy : LoopPolicy) (risk : RiskLevel) (steps : List TierStep) : Prop where
  once : (stepNames steps).Nodup
  demanded : ∀ name, name ∈ stepNames steps ↔ Demanded policy risk name
  taken : ∀ step ∈ steps, ∃ tier, Inherits policy risk tier ∧ step ∈ (policy.tiers.tier tier).steps
  inheritedFirst : ∀ tier, Inherits policy risk tier → ∃ inherited own, steps = inherited ++ own ∧
    ∀ name, name ∈ stepNames inherited ↔ Demanded policy tier name

theorem collect_cumulative (depth : ℕ) : ∀ (level : RiskLevel) (steps : List TierStep),
    collect policy depth level [] = some steps → Cumulative policy level steps := by
  induction depth with
  | zero =>
    intro level steps h
    simp [collect] at h
  | succ depth ih =>
    intro level steps h
    have hdemanded : ∀ name, name ∈ stepNames steps ↔ Demanded policy level name :=
      mem_stepsForRisk_iff h
    by_cases hparent : ∃ parent, Parent policy level parent
    · obtain ⟨parent, hparent⟩ := hparent
      rw [collect_below hparent] at h
      obtain ⟨inherited, hcollect, hsteps⟩ := Option.map_eq_some_iff.mp h
      obtain ⟨honce, -, htaken, hfirst⟩ := ih parent inherited hcollect
      obtain ⟨added, hadded, hsubset, hnodup⟩ :=
        addSteps_spec (policy.tiers.tier level).steps inherited honce
      obtain rfl : inherited ++ added = steps := hadded ▸ hsteps
      refine ⟨hnodup, hdemanded, fun step hstep => ?_, fun tier htier => ?_⟩
      · rcases List.mem_append.mp hstep with hstep | hstep
        · obtain ⟨tier, htier, hmem⟩ := htaken step hstep
          exact ⟨tier, .head hparent htier, hmem⟩
        · exact ⟨level, .refl, hsubset hstep⟩
      · rcases Relation.ReflTransGen.cases_head htier with rfl | ⟨parent', hparent', htier'⟩
        · exact ⟨inherited ++ added, [], by simp, hdemanded⟩
        · obtain rfl := hparent.unique hparent'
          obtain ⟨first, own, rfl, hnames⟩ := hfirst tier htier'
          exact ⟨first, own ++ added, by simp, hnames⟩
    · rw [collect_top hparent] at h
      obtain ⟨added, hadded, hsubset, hnodup⟩ :=
        addSteps_spec (policy.tiers.tier level).steps [] List.nodup_nil
      obtain rfl : added = steps := by simpa [hadded] using h
      refine ⟨hnodup, hdemanded, fun step hstep => ⟨level, .refl, hsubset hstep⟩,
        fun tier htier => ?_⟩
      rcases Relation.ReflTransGen.cases_head htier with rfl | ⟨parent, hparent', -⟩
      · exact ⟨added, [], by simp, hdemanded⟩
      · exact absurd ⟨parent, hparent'⟩ hparent

end Collect

instance : Finite RiskLevel :=
  Finite.of_surjective (fun n : Fin 3 => [RiskLevel.low, .medium, .high].get n) fun level => by
    cases level
    · exact ⟨0, rfl⟩
    · exact ⟨1, rfl⟩
    · exact ⟨2, rfl⟩

/-- **The steps of a level.**  They are collected, each name once and the inherited before the own,
exactly when no tier that the level inherits inherits itself through another one. -/
theorem stepsForRisk_cumulative (policy : LoopPolicy) (risk : RiskLevel) :
    (∃ depth steps, stepsForRisk policy depth risk = some steps ∧ Cumulative policy risk steps) ↔
      ∀ tier parent, Inherits policy risk tier → Parent policy tier parent →
        ¬ Inherits policy parent tier := by
  constructor
  · rintro ⟨depth, steps, hsteps, -⟩
    exact Chains.acyclic_of_acc (acc_of_collect depth risk [] steps hsteps)
  · intro h
    obtain ⟨depth, steps, hsteps⟩ := collect_returns (Chains.acc_of_acyclic h) []
    exact ⟨depth, steps, hsteps, collect_cumulative depth risk steps hsteps⟩

/-! ### Two tiers that inherit each other -/

def cyclicTiers : Json :=
  .obj [(lit "low", sampleTier [] "Lint"),
    (lit "medium", sampleTier [(lit "inherits", .str (lit "high"))] "Unit tests"),
    (lit "high", sampleTier [(lit "inherits", .str (lit "medium"))] "Browser tests")]

/-- The sample document with these tiers. -/
def cyclicDocument : Json :=
  match sampleDocument "low" [] with
  | .obj members => .obj (members.map fun m => if m.1 = lit "tiers" then (m.1, cyclicTiers) else m)
  | document => document

def cyclicPolicy : LoopPolicy :=
  { samplePolicy .low none with
    tiers :=
      { low := ⟨none, [⟨lit "Lint", lit "pnpm", [], none, none, none, 20⟩], 1⟩
        medium := ⟨some .high, [⟨lit "Unit tests", lit "pnpm", [], none, none, none, 20⟩], 1⟩
        high := ⟨some .medium, [⟨lit "Browser tests", lit "pnpm", [], none, none, none, 20⟩], 1⟩ } }

/-- The policy is accepted, and its steps are never collected. -/
theorem cyclic_never_returns : parsePolicy cyclicDocument = some cyclicPolicy ∧
    ∀ depth, stepsForRisk cyclicPolicy depth .medium = none := by
  refine ⟨by decide +kernel, fun depth => ?_⟩
  cases hsteps : stepsForRisk cyclicPolicy depth .medium with
  | none => rfl
  | some steps =>
    have hup : Parent cyclicPolicy .medium .high := ⟨rfl, by decide⟩
    have hdown : Parent cyclicPolicy .high .medium := ⟨rfl, by decide⟩
    have hacyclic := Chains.acyclic_of_acc (acc_of_collect depth .medium [] steps hsteps)
    exact absurd (.single hdown) (hacyclic .medium .high .refl hup)

end Newsdeck.Loop

import Mathlib.Data.List.Basic
import Mathlib.Data.List.Nodup

/-!
# Storing the leaders of groups that are new

A store takes up groups of elements.  An element is recognised by what it touches, and of a group none
of whose members is recognised the leader is stored.

* `absorb` — the store after so many groups;
* `absorb_append` — groups that are apart from one another may be taken up in parts;
* `absorb_of_subset` — what was taken up adds nothing when it comes again;
* `absorb_again` — attempts that stop after any group, one after the other, amount to one attempt;
* `nodup_absorb` — a key by which elements touch stays unique.
-/

namespace Absorption

variable {ι κ : Type}

structure Cluster (ι : Type) where
  leader : ι
  others : List ι
  deriving DecidableEq, Repr

def Cluster.members (g : Cluster ι) : List ι := g.leader :: g.others

section Touching

variable (touches : ι → ι → Prop)

/-- No element of the store touches a member of the group. -/
def Unknown (s : List ι) (g : Cluster ι) : Prop := ∀ m ∈ g.members, ∀ x ∈ s, ¬ touches x m

instance [DecidableRel touches] (s : List ι) (g : Cluster ι) : Decidable (Unknown touches s g) :=
  inferInstanceAs (Decidable (∀ m ∈ g.members, ∀ x ∈ s, ¬ touches x m))

/-- No member of the one touches a member of the other. -/
def Apart (g h : Cluster ι) : Prop := ∀ a ∈ g.members, ∀ b ∈ h.members, ¬ touches a b

variable [DecidableRel touches]

/-- The store, and the leaders of the groups that are unknown to it. -/
def absorb (s : List ι) (groups : List (Cluster ι)) : List ι :=
  s ++ (groups.filter fun g => Unknown touches s g).map Cluster.leader

end Touching

variable {touches : ι → ι → Prop} {s t : List ι} {g h : Cluster ι}

theorem unknown_append : Unknown touches (s ++ t) g ↔ Unknown touches s g ∧ Unknown touches t g := by
  constructor
  · intro hknown
    exact ⟨fun m hm x hx => hknown m hm x (List.mem_append_left t hx),
      fun m hm x hx => hknown m hm x (List.mem_append_right s hx)⟩
  · rintro ⟨hs, ht⟩ m hm x hx
    rcases List.mem_append.mp hx with hx | hx
    · exact hs m hm x hx
    · exact ht m hm x hx

/-- A group whose leader is stored is known. -/
theorem known_of_leader (hrefl : ∀ x, touches x x) (hg : g.leader ∈ s) : ¬ Unknown touches s g :=
  fun hunknown => hunknown g.leader List.mem_cons_self g.leader hg (hrefl _)

variable [DecidableRel touches] {gs hs : List (Cluster ι)}

@[simp] theorem absorb_nil : absorb touches s [] = s := List.append_nil s

theorem mem_absorb {x : ι} (hx : x ∈ absorb touches s gs) :
    x ∈ s ∨ ∃ g ∈ gs, Unknown touches s g ∧ g.leader = x := by
  rcases List.mem_append.mp hx with hx | hx
  · exact .inl hx
  · obtain ⟨g, hg, rfl⟩ := List.mem_map.mp hx
    obtain ⟨hmem, hunknown⟩ := List.mem_filter.mp hg
    exact .inr ⟨g, hmem, of_decide_eq_true hunknown, rfl⟩

/-- One group more. -/
theorem absorb_snoc : absorb touches s (gs ++ [g]) =
    absorb touches s gs ++ if Unknown touches s g then [g.leader] else [] := by
  unfold absorb
  rw [List.filter_append, List.map_append, List.append_assoc]
  by_cases hg : Unknown touches s g
  · simp [hg]
  · simp [hg]

/-- Nothing is stored exactly when every group is known. -/
theorem absorb_eq_self_iff : absorb touches s gs = s ↔ ∀ g ∈ gs, ¬ Unknown touches s g := by
  unfold absorb
  rw [List.append_right_eq_self, List.map_eq_nil_iff, List.filter_eq_nil_iff]
  simp only [decide_eq_true_eq]

/-- What is taken up does not make a group known that is apart from it. -/
theorem unknown_absorb_iff (hapart : ∀ g ∈ gs, Apart touches g h) :
    Unknown touches (absorb touches s gs) h ↔ Unknown touches s h := by
  refine ⟨fun hunknown => (unknown_append.mp hunknown).1, fun hunknown m hm x hx => ?_⟩
  rcases mem_absorb hx with hx | ⟨g, hg, -, rfl⟩
  · exact hunknown m hm x hx
  · exact hapart g hg _ List.mem_cons_self m hm

theorem absorb_append (hapart : (gs ++ hs).Pairwise (Apart touches)) :
    absorb touches (absorb touches s gs) hs = absorb touches s (gs ++ hs) := by
  have hsame : ∀ h ∈ hs, decide (Unknown touches (absorb touches s gs) h) =
      decide (Unknown touches s h) := fun h hh =>
    decide_eq_decide.mpr
      (unknown_absorb_iff fun g hg => (List.pairwise_append.mp hapart).2.2 g hg h hh)
  have hfilter := List.filter_congr hsame
  show absorb touches s gs ++ (hs.filter _).map _ = s ++ ((gs ++ hs).filter _).map _
  rw [hfilter, List.filter_append, List.map_append, ← List.append_assoc]
  rfl

variable (hrefl : ∀ x, touches x x)
include hrefl

theorem known_absorb (hg : g ∈ gs) : ¬ Unknown touches (absorb touches s gs) g := by
  by_cases hunknown : Unknown touches s g
  · refine known_of_leader hrefl (List.mem_append_right s ?_)
    exact List.mem_map_of_mem (List.mem_filter.mpr ⟨hg, decide_eq_true hunknown⟩)
  · exact fun h => hunknown (unknown_append.mp h).1

/-- **Again.**  Groups that were taken up add nothing. -/
theorem absorb_of_subset (hsub : hs ⊆ gs) :
    absorb touches (absorb touches s gs) hs = absorb touches s gs :=
  absorb_eq_self_iff.mpr fun _ hg => known_absorb hrefl (hsub hg)

/-- **Retry.**  Two attempts that stop somewhere amount to one that stops no earlier than either. -/
theorem absorb_again (hapart : gs.Pairwise (Apart touches)) {done done' : List (Cluster ι)}
    (hdone : done <+: gs) (hdone' : done' <+: gs) :
    ∃ all, all <+: gs ∧ done' <+: all ∧
      absorb touches (absorb touches s done) done' = absorb touches s all := by
  rcases List.prefix_or_prefix_of_prefix hdone hdone' with hle | hle
  · obtain ⟨rest, rfl⟩ := hle
    refine ⟨_, hdone', List.prefix_rfl, ?_⟩
    have hparts := hapart.sublist hdone'.sublist
    rw [← absorb_append hparts, ← absorb_append hparts, absorb_of_subset hrefl (List.Subset.refl done)]
  · exact ⟨done, hdone, hle, absorb_of_subset hrefl hle.subset⟩

omit hrefl

/-- **Keys.**  A key by which elements touch stays unique. -/
theorem nodup_absorb (key : ι → κ) (hkey : ∀ x y, key x = key y → touches x y)
    (hapart : gs.Pairwise (Apart touches)) (hs : (s.map key).Nodup) :
    ((absorb touches s gs).map key).Nodup := by
  unfold absorb
  rw [List.map_append, List.map_map]
  refine List.nodup_append.mpr ⟨hs, ?_, ?_⟩
  · rw [List.Nodup, List.pairwise_map]
    refine (hapart.sublist List.filter_sublist).imp fun {g h} hgh heq => ?_
    exact hgh _ List.mem_cons_self _ List.mem_cons_self (hkey _ _ heq)
  · intro a ha b hb hab
    obtain ⟨x, hx, rfl⟩ := List.mem_map.mp ha
    obtain ⟨g, hg, rfl⟩ := List.mem_map.mp hb
    have hunknown := of_decide_eq_true (List.mem_filter.mp hg).2
    exact hunknown _ List.mem_cons_self x hx (hkey _ _ hab)

end Absorption

import Mathlib.Data.List.Infix

/-!
# Masked copies of a list

A copy of a list in which some stretches are replaced by masks.  What the copy contains that cannot
come out of a mask stood in the list already, and in the same surroundings.

* `Masked` — a list beside a masked copy, each behind what was read of it so far;
* `Detached` — nothing of the given word comes out of the mask;
* `Masked.first_mask`, `Masked.split_at` — reading the copy forward, and from a place on;
* `Masked.pull` — a word of the copy that no mask has a part in was kept.
-/

namespace Masking

variable {α : Type}

/-- A list and its masked copy, behind what stands in front of either, nearest first.  `kept` tells
where a unit may be kept; `cut b r l x` tells that behind `b` and in front of `x` the mask `l` may stand
for `r`. -/
inductive Masked (kept : List α → List α → Prop) (cut : List α → List α → List α → List α → Prop) :
    List α → List α → List α → List α → Prop
  | nil (b b' : List α) : Masked kept cut b b' [] []
  | keep {b b' x y : List α} {c : α} (h : kept b (c :: x))
      (rest : Masked kept cut (c :: b) (c :: b') x y) : Masked kept cut b b' (c :: x) (c :: y)
  | mask {b b' r l x y : List α} (h : cut b r l x)
      (rest : Masked kept cut (r.reverse ++ b) (l.reverse ++ b') x y) :
      Masked kept cut b b' (r ++ x) (l ++ y)

/-- The word neither holds the ends of the mask nor stands within it. -/
structure Detached (m l : List α) : Prop where
  first : ∃ c ∈ l.head?, c ∉ m
  last : ∃ c ∈ l.getLast?, c ∉ m
  within : ¬ m <:+: l

variable {kept : List α → List α → Prop} {cut : List α → List α → List α → List α → Prop}
  {b b' x y m : List α}

theorem Masked.mono {kept' : List α → List α → Prop} {cut' : List α → List α → List α → List α → Prop}
    (hkept : ∀ b x, kept b x → kept' b x) (hcut : ∀ b r l x, cut b r l x → cut' b r l x)
    (h : Masked kept cut b b' x y) : Masked kept' cut' b b' x y := by
  induction h with
  | nil b b' => exact .nil b b'
  | keep h _ ih => exact .keep (hkept _ _ h) ih
  | mask h _ ih => exact .mask (hcut _ _ _ _ h) ih

/-- A word that is kept. -/
theorem Masked.keeps (hkept : ∀ u v, m = u ++ v → v ≠ [] → kept (u.reverse ++ b) (v ++ x))
    (h : Masked kept cut (m.reverse ++ b) (m.reverse ++ b') x y) :
    Masked kept cut b b' (m ++ x) (m ++ y) := by
  induction m generalizing b b' with
  | nil => exact h
  | cons c m ih =>
    refine .keep (hkept [] (c :: m) rfl (List.cons_ne_nil _ _)) (ih ?_ ?_)
    · intro u v hsplit hne
      have hhere := hkept (c :: u) v (by rw [hsplit]; rfl) hne
      rwa [List.reverse_cons, List.append_assoc] at hhere
    · rwa [List.reverse_cons, List.append_assoc, List.append_assoc] at h

/-- Reading a stretch of the copy, either all of it was kept or a mask begins within it. -/
theorem Masked.first_mask {u y' : List α} (h : Masked kept cut b b' x (u ++ y')) :
    (∃ x', x = u ++ x' ∧ Masked kept cut (u.reverse ++ b) (u.reverse ++ b') x' y') ∨
      ∃ k w r l x' y₂, u = k ++ w ∧ w ≠ [] ∧ x = k ++ (r ++ x') ∧ cut (k.reverse ++ b) r l x' ∧
        w ++ y' = l ++ y₂ ∧
        Masked kept cut (r.reverse ++ (k.reverse ++ b)) (l.reverse ++ (k.reverse ++ b')) x' y₂ := by
  induction u generalizing b b' x with
  | nil => exact .inl ⟨x, rfl, h⟩
  | cons d u ih =>
    rw [List.cons_append] at h
    generalize hcopy : d :: (u ++ y') = copy at h
    cases h with
    | nil => cases hcopy
    | @keep _ _ x y c hkept rest =>
      obtain ⟨rfl, rfl⟩ := List.cons.inj hcopy
      rcases ih rest with ⟨x', rfl, hrest⟩ | ⟨k, w, r, l, x', y₂, rfl, hw, rfl, hcut, hsplit, hrest⟩
      · exact .inl ⟨x', rfl, by simpa using hrest⟩
      · exact .inr ⟨d :: k, w, r, l, x', y₂, rfl, hw, rfl, by simpa using hcut, hsplit,
          by simpa using hrest⟩
    | @mask _ _ r l x y hcut rest =>
      exact .inr ⟨[], d :: u, r, l, x, y, rfl, List.cons_ne_nil _ _, rfl, hcut, hcopy, rest⟩

/-- Going to a place of the copy leads to a place of the list, or into a mask.  What holds of the two sides
behind each unit that was kept, and behind each mask, holds there. -/
theorem Masked.split_at (link : List α → List α → List α → Prop) {pre' y' : List α}
    (hkeep : ∀ c b b' x, link (c :: b) (c :: b') x)
    (hmask : ∀ b b' r l x, cut b r l x → link (r.reverse ++ b) (l.reverse ++ b') x)
    (h : Masked kept cut b b' x y) (hlink : link b b' x) (hy : y = pre' ++ y') :
    (∃ pre x', x = pre ++ x' ∧ link (pre.reverse ++ b) (pre'.reverse ++ b') x' ∧
        Masked kept cut (pre.reverse ++ b) (pre'.reverse ++ b') x' y') ∨
      ∃ b b' r l x w v y₂, cut b r l x ∧ l = w ++ v ∧ v ≠ [] ∧ y' = v ++ y₂ ∧
        Masked kept cut (r.reverse ++ b) (l.reverse ++ b') x y₂ := by
  induction h generalizing pre' with
  | nil b b' =>
    obtain ⟨rfl, rfl⟩ := List.append_eq_nil_iff.mp hy.symm
    exact .inl ⟨[], [], rfl, hlink, .nil b b'⟩
  | @keep b b' x y c hkept rest ih =>
    cases pre' with
    | nil =>
      rw [List.nil_append] at hy
      subst hy
      exact .inl ⟨[], c :: x, rfl, hlink, .keep hkept rest⟩
    | cons d pre' =>
      obtain ⟨rfl, hrest⟩ := List.cons.inj hy
      rcases ih (hkeep _ _ _ _) hrest with ⟨pre, x', rfl, hlink', hmasked⟩ | hwithin
      · exact .inl ⟨c :: pre, x', rfl, by simpa using hlink', by simpa using hmasked⟩
      · exact .inr hwithin
  | @mask b b' r l x y hcut rest ih =>
    rcases List.append_eq_append_iff.mp hy with ⟨more, rfl, hrest⟩ | ⟨more, hl, hrest⟩
    · rcases ih (hmask _ _ _ _ _ hcut) hrest with ⟨pre, x', rfl, hlink', hmasked⟩ | hwithin
      · exact .inl ⟨r ++ pre, x', by rw [List.append_assoc], by simpa using hlink', by simpa using hmasked⟩
      · exact .inr hwithin
    · by_cases hmore : more = []
      · subst hmore
        rw [List.append_nil] at hl
        rw [List.nil_append] at hrest
        rw [← hl, hrest]
        exact .inl ⟨r, x, rfl, hmask _ _ _ _ _ hcut, rest⟩
      · exact .inr ⟨b, b', r, l, x, pre', more, y, hcut, hl, hmore, hrest, rest⟩

/-- A word at the start of the copy stood at the start of the list. -/
theorem Masked.of_append {post' : List α} (hapart : ∀ b r l x, cut b r l x → ∃ c ∈ l.head?, c ∉ m)
    (h : Masked kept cut b b' x (m ++ post')) :
    ∃ post, x = m ++ post ∧ Masked kept cut (m.reverse ++ b) (m.reverse ++ b') post post' := by
  rcases h.first_mask with hkept | ⟨k, w, r, l, x', y₂, rfl, hw, rfl, hcut, hsplit, -⟩
  · exact hkept
  · obtain ⟨c, hc, hnot⟩ := hapart _ _ _ _ hcut
    obtain ⟨d, w, rfl⟩ := List.exists_cons_of_ne_nil hw
    cases l with
    | nil => cases hc
    | cons e l =>
      obtain rfl : e = c := Option.some.inj hc
      obtain ⟨rfl, -⟩ := List.cons.inj hsplit
      exact absurd (List.mem_append_right k List.mem_cons_self) hnot

/-- A word that no mask has a part in cannot start within one. -/
theorem not_append_eq_of_apart {l w v y post' : List α} (hapart : Detached m l) (hl : l = w ++ v) (hv : v ≠ [])
    (h : v ++ y = m ++ post') : False := by
  subst hl
  obtain ⟨c, hc, hnot⟩ := hapart.last
  rw [List.getLast?_append_of_ne_nil _ hv] at hc
  rcases List.append_eq_append_iff.mp h with ⟨more, rfl, -⟩ | ⟨more, rfl, -⟩
  · exact hnot (List.mem_append_left _ (List.mem_of_mem_getLast? hc))
  · exact hapart.within ⟨w, more, by simp⟩

/-- In front of what no mask begins with, something is kept. -/
theorem Masked.kept_head {post' : List α} (hapart : ∀ b r l x, cut b r l x → ∃ c ∈ l.head?, c ∉ m)
    (hne : m ≠ []) (h : Masked kept cut b b' x (m ++ post')) : kept b x := by
  obtain ⟨d, m, rfl⟩ := List.exists_cons_of_ne_nil hne
  rw [List.cons_append] at h
  generalize hcopy : d :: (m ++ post') = copy at h
  cases h with
  | nil => cases hcopy
  | keep hkept _ => exact hkept
  | @mask _ _ r l x y hcut _ =>
    obtain ⟨c, hc, hnot⟩ := hapart _ _ _ _ hcut
    cases l with
    | nil => cases hc
    | cons e l =>
      obtain rfl : e = c := Option.some.inj hc
      obtain ⟨rfl, -⟩ := List.cons.inj hcopy
      exact absurd List.mem_cons_self hnot

/-- **A word of the copy that no mask has a part in stood in the list**, behind sides of which the same
holds. -/
theorem Masked.pull (link : List α → List α → List α → Prop) {pre' post' : List α}
    (hkeep : ∀ c b b' x, link (c :: b) (c :: b') x)
    (hmask : ∀ b b' r l x, cut b r l x → link (r.reverse ++ b) (l.reverse ++ b') x)
    (hapart : ∀ b r l x, cut b r l x → Detached m l) (hne : m ≠ [])
    (h : Masked kept cut b b' x y) (hlink : link b b' x) (hy : y = pre' ++ (m ++ post')) :
    ∃ pre post, x = pre ++ (m ++ post) ∧ link (pre.reverse ++ b) (pre'.reverse ++ b') (m ++ post) ∧
      kept (pre.reverse ++ b) (m ++ post) ∧
      Masked kept cut (m.reverse ++ (pre.reverse ++ b)) (m.reverse ++ (pre'.reverse ++ b')) post
        post' := by
  have hfirst : ∀ b r l x, cut b r l x → ∃ c ∈ l.head?, c ∉ m := fun b r l x hcut => (hapart b r l x hcut).first
  rcases h.split_at link hkeep hmask hlink hy with
    ⟨pre, x', rfl, hlink', hmasked⟩ | ⟨_, _, r, l, _, w, v, y₂, hcut, hl, hv, hsplit, -⟩
  · have hkept := hmasked.kept_head hfirst hne
    obtain ⟨post, rfl, hpost⟩ := hmasked.of_append hfirst
    exact ⟨pre, post, rfl, hlink', hkept, hpost⟩
  · exact (not_append_eq_of_apart (hapart _ _ _ _ hcut) hl hv hsplit.symm).elim

end Masking

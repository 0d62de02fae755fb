import Newsdeck.Ecma.Text
import Newsdeck.Library.Framing
import Newsdeck.Library.Interspersing

/-!
# What `replaceAll` leaves behind

Two facts about `text.replaceAll(pattern, replacement)`, on which every sanitising step rests.

* `not_infix_replaceAll` — a replacement that cannot rebuild its pattern leaves no occurrence of the
  pattern behind, not even one put together from a replacement and the text around it;
* `infix_of_infix_replaceAll` — a text that shares no unit with the replacement occurs afterwards
  only if it occurred before.

`forall₂_replaceAll`, `interspersed_replaceAll` and `replaceAll_eq_self` say what else it does and when it does nothing.
-/

namespace Ecma

open Framing Interspersing

variable {pattern replacement : Text}

/-- What the scan copied is what was there: a prefix of the result whose rest never fits the start
of a replacement is a prefix of the text. -/
theorem prefix_of_prefix_replaceFrom (t : Text) :
    ∀ w : Text, (∀ v, v <:+ w → v ≠ [] → ∀ rest, ¬ v <+: replacement ++ rest) →
      w <+: replaceFrom pattern replacement 0 t → w <+: t := by
  induction t with
  | nil =>
    intro w _ h
    simpa [replaceFrom] using h
  | cons c t ih =>
    intro w hblock h
    cases w with
    | nil => exact List.nil_prefix
    | cons d w =>
      unfold replaceFrom at h
      split at h
      · exact absurd h (hblock _ (List.suffix_refl _) (by simp) _)
      · obtain ⟨rfl, h'⟩ := List.cons_prefix_cons.mp h
        refine List.cons_prefix_cons.mpr ⟨rfl, ih w (fun v hv => hblock v ?_) h'⟩
        exact hv.trans (List.suffix_cons _ _)

/-- An occurrence that cannot begin in the text in front of it lies behind it. -/
theorem infix_of_infix_append_of_head {w p q : Text} (hw : w ≠ []) (hp : w.head hw ∉ p)
    (h : w <:+: p ++ q) : w <:+: q := by
  induction p with
  | nil => exact h
  | cons c p ih =>
    rcases List.infix_cons_iff.mp h with h | h
    · cases w with
      | nil => exact absurd rfl hw
      | cons d w =>
        obtain ⟨rfl, -⟩ := List.cons_prefix_cons.mp h
        exact absurd List.mem_cons_self hp
    · exact ih (fun hmem => hp (List.mem_cons_of_mem c hmem)) h

/-- An occurrence that shares no unit with the text in front of it lies behind it. -/
theorem infix_of_infix_append {w p q : Text} (hw : w ≠ []) (hp : ∀ c ∈ p, c ∉ w)
    (h : w <:+: p ++ q) : w <:+: q :=
  infix_of_infix_append_of_head hw (fun hmem => hp _ hmem (List.head_mem hw)) h

/-- **No occurrence is left.**  A unit of the replacement does not stand in the pattern; in front of it is
none with which the pattern ends, and behind it none with which it begins. -/
theorem not_infix_replaceFrom_of_head {front : Text} {c : ℕ} {back : Text} (hne : pattern ≠ [])
    (hr : replacement = front ++ c :: back) (hfront : pattern.getLast hne ∉ front)
    (hc : c ∉ pattern) (hback : pattern.head hne ∉ back) (t : Text) :
    ∀ k, ¬ pattern <:+: replaceFrom pattern replacement k t := by
  -- a rest of the pattern would have to end in `front` or to contain `c`
  have hblock : ∀ v, v <:+ pattern → v ≠ [] → ∀ rest, ¬ v <+: replacement ++ rest := by
    intro v hv hvne rest hpre
    rw [hr, List.append_assoc, List.cons_append] at hpre
    have hleft := prefix_of_append_cons (fun hmem => hc (hv.subset hmem)) hpre
    refine hfront (hleft.subset ?_)
    rw [← hv.getLast hvne]
    exact List.getLast_mem hvne
  induction t with
  | nil =>
    intro k h
    cases k <;> exact hne (List.infix_nil.mp h)
  | cons d t ih =>
    intro k h
    cases k with
    | succ k => exact ih k h
    | zero =>
      unfold replaceFrom at h
      split at h
      · rw [hr, List.append_assoc, List.cons_append, infix_append_cons_iff hc] at h
        rcases h with h | h
        · exact hfront (h.subset (List.getLast_mem hne))
        · rw [← hr] at h
          exact ih _ (infix_of_infix_append_of_head hne hback h)
      · rename_i hpattern
        rcases List.infix_cons_iff.mp h with h | h
        · refine hpattern (List.isPrefixOf_iff_prefix.mpr ?_)
          obtain ⟨p, rfl⟩ : ∃ p, pattern = d :: p := by
            cases hp : pattern with
            | nil => exact absurd hp hne
            | cons e p => exact ⟨p, by rw [hp] at h; rw [(List.cons_prefix_cons.mp h).1]⟩
          refine List.cons_prefix_cons.mpr ⟨rfl, ?_⟩
          refine prefix_of_prefix_replaceFrom t p (fun v hv => hblock v ?_)
            (List.cons_prefix_cons.mp h).2
          exact hv.trans (List.suffix_cons _ _)
        · exact ih 0 h

/-- The replacement starts with units that are not the last one of the pattern and goes on with units that do
not stand in it at all. -/
theorem not_infix_replaceFrom {front : Text} {c : ℕ} {back : Text} (hne : pattern ≠ [])
    (hr : replacement = front ++ c :: back) (hfront : pattern.getLast hne ∉ front)
    (hc : c ∉ pattern) (hback : ∀ d ∈ back, d ∉ pattern) (t : Text) :
    ∀ k, ¬ pattern <:+: replaceFrom pattern replacement k t :=
  not_infix_replaceFrom_of_head hne hr hfront hc (fun hmem => hback _ hmem (List.head_mem hne)) t

theorem not_infix_replaceAll {front : Text} {c : ℕ} {back : Text} (hne : pattern ≠ [])
    (hr : replacement = front ++ c :: back) (hfront : pattern.getLast hne ∉ front)
    (hc : c ∉ pattern) (hback : ∀ d ∈ back, d ∉ pattern) (t : Text) :
    ¬ pattern <:+: replaceAll pattern replacement t :=
  not_infix_replaceFrom hne hr hfront hc hback t 0

/-- **No occurrence is added.** -/
theorem infix_of_infix_replaceFrom {w : Text} (hw : w ≠ []) (hr : replacement ≠ [])
    (hdisjoint : ∀ c ∈ replacement, c ∉ w) (t : Text) :
    ∀ k, w <:+: replaceFrom pattern replacement k t → w <:+: t := by
  have hblock : ∀ v, v <:+ w → v ≠ [] → ∀ rest, ¬ v <+: replacement ++ rest := by
    intro v hv hvne rest hpre
    cases v with
    | nil => exact hvne rfl
    | cons d v =>
      cases replacement with
      | nil => exact hr rfl
      | cons e r =>
        obtain ⟨rfl, -⟩ := List.cons_prefix_cons.mp hpre
        exact hdisjoint d (by simp) (hv.subset (by simp))
  induction t with
  | nil =>
    intro k h
    cases k <;> exact h
  | cons d t ih =>
    intro k h
    cases k with
    | succ k => exact List.infix_cons (ih k h)
    | zero =>
      unfold replaceFrom at h
      split at h
      · exact List.infix_cons (ih _ (infix_of_infix_append hw hdisjoint h))
      · rcases List.infix_cons_iff.mp h with h | h
        · cases w with
          | nil => exact absurd rfl hw
          | cons e w =>
            obtain ⟨rfl, h'⟩ := List.cons_prefix_cons.mp h
            refine (List.cons_prefix_cons.mpr ⟨rfl, ?_⟩ : e :: w <+: e :: t).isInfix
            exact prefix_of_prefix_replaceFrom t w
              (fun v hv => hblock v (hv.trans (List.suffix_cons _ _))) h'
        · exact List.infix_cons (ih 0 h)

theorem infix_of_infix_replaceAll {w t : Text} (hw : w ≠ []) (hr : replacement ≠ [])
    (hdisjoint : ∀ c ∈ replacement, c ∉ w) (h : w <:+: replaceAll pattern replacement t) :
    w <:+: t :=
  infix_of_infix_replaceFrom hw hr hdisjoint t 0 h

/-- The occurrence that was found is passed over. -/
theorem replaceFrom_length (u t : Text) :
    replaceFrom pattern replacement u.length (u ++ t) = replaceFrom pattern replacement 0 t := by
  induction u with
  | nil => rfl
  | cons c u ih => exact ih

theorem replaceFrom_append (hne : pattern ≠ []) (t : Text) :
    replaceFrom pattern replacement 0 (pattern ++ t) = replacement ++ replaceFrom pattern replacement 0 t := by
  obtain ⟨c, u, rfl⟩ := List.exists_cons_of_ne_nil hne
  have hbegins : (c :: u).isPrefixOf (c :: (u ++ t)) = true :=
    List.isPrefixOf_iff_prefix.mpr (List.prefix_append (c :: u) t)
  rw [List.cons_append, replaceFrom, if_pos hbegins]
  exact congrArg _ (replaceFrom_length u t)

/-- A replacement that is like its pattern leaves a text that is like the one before, unit by unit. -/
theorem forall₂_replaceAll {R : ℕ → ℕ → Prop} (hrefl : ∀ c, R c c) (hne : pattern ≠ [])
    (h : List.Forall₂ R pattern replacement) (t : Text) :
    List.Forall₂ R t (replaceAll pattern replacement t) := by
  unfold replaceAll
  induction hlength : t.length using Nat.strong_induction_on generalizing t with
  | _ n ih =>
    cases t with
    | nil => exact .nil
    | cons c t =>
      by_cases hbegins : pattern <+: c :: t
      · obtain ⟨rest, hrest⟩ := hbegins
        rw [← hrest, replaceFrom_append hne]
        refine List.rel_append h (ih rest.length ?_ rest rfl)
        have hpos := List.length_pos_iff.mpr hne
        rw [← hlength, ← hrest, List.length_append]
        omega
      · rw [replaceFrom, if_neg (fun hp => hbegins (List.isPrefixOf_iff_prefix.mp hp))]
        exact .cons (hrefl c) (ih t.length (by rw [← hlength]; exact Nat.lt_succ_self _) t rfl)

/-- A replacement that is its pattern with a unit put in puts the unit in the text. -/
theorem interspersed_replaceAll {c : ℕ} (hne : pattern ≠ []) (h : Interspersed c pattern replacement)
    (t : Text) : Interspersed c t (replaceAll pattern replacement t) := by
  unfold replaceAll
  induction hlength : t.length using Nat.strong_induction_on generalizing t with
  | _ n ih =>
    cases t with
    | nil => exact .nil
    | cons d t =>
      by_cases hbegins : pattern <+: d :: t
      · obtain ⟨rest, hrest⟩ := hbegins
        rw [← hrest, replaceFrom_append hne]
        refine h.append (ih rest.length ?_ rest rfl)
        have hpos := List.length_pos_iff.mpr hne
        rw [← hlength, ← hrest, List.length_append]
        omega
      · rw [replaceFrom, if_neg (fun hp => hbegins (List.isPrefixOf_iff_prefix.mp hp))]
        exact .keep d (ih t.length (by rw [← hlength]; exact Nat.lt_succ_self _) t rfl)

/-- Where the pattern does not occur nothing is replaced. -/
theorem replaceAll_eq_self {t : Text} (h : ¬ pattern <:+: t) : replaceAll pattern replacement t = t := by
  unfold replaceAll
  induction t with
  | nil => rfl
  | cons c t ih =>
    rw [replaceFrom, if_neg (fun hp => h (List.isPrefixOf_iff_prefix.mp hp).isInfix),
      ih fun hinfix => h (List.infix_cons hinfix)]

end Ecma

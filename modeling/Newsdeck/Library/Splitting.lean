import Mathlib.Data.List.Basic
import Mathlib.Data.List.TakeWhile

/-!
# Splitting a list

* `span_unique` — a list is cut in one way where a run of a class ends;
* `append_cons_inj_of_not_mem` — and in one way where an element first occurs;
* `mem_splitOnP_iff` — what splitting at a class leaves.
-/

namespace Splitting

variable {α : Type}

/-- A list is cut in one way into a run of a class and what does not begin with it. -/
theorem span_unique {p : α → Bool} {u v u' v' : List α} (h : u ++ v = u' ++ v')
    (hu : ∀ c ∈ u, p c = true) (hv : ∀ c ∈ v.head?, p c = false)
    (hu' : ∀ c ∈ u', p c = true) (hv' : ∀ c ∈ v'.head?, p c = false) : u = u' ∧ v = v' := by
  have key : ∀ {u v : List α}, (∀ c ∈ u, p c = true) → (∀ c ∈ v.head?, p c = false) →
      (u ++ v).takeWhile p = u ∧ (u ++ v).dropWhile p = v := by
    intro u v hu hv
    rw [List.takeWhile_append_of_pos hu, List.dropWhile_append_of_pos hu]
    cases v with
    | nil => simp
    | cons c v => simp [hv c rfl]
  obtain ⟨htake, hdrop⟩ := key hu hv
  obtain ⟨htake', hdrop'⟩ := key hu' hv'
  rw [h] at htake hdrop
  exact ⟨htake.symm.trans htake', hdrop.symm.trans hdrop'⟩

/-- A list has one split at the first occurrence of an element. -/
theorem append_cons_inj_of_not_mem {a : α} {front front' back back' : List α}
    (hfront : a ∉ front) (hfront' : a ∉ front') (h : front ++ a :: back = front' ++ a :: back') :
    front = front' ∧ back = back' := by
  induction front generalizing front' with
  | nil =>
    cases front' with
    | nil => exact ⟨rfl, (List.cons.inj h).2⟩
    | cons c rest => exact absurd (List.mem_cons.mpr (.inl (List.cons.inj h).1)) hfront'
  | cons b front ih =>
    cases front' with
    | nil => exact absurd (List.mem_cons.mpr (.inl (List.cons.inj h).1.symm)) hfront
    | cons c rest =>
      obtain ⟨rfl, htail⟩ := List.cons.inj h
      obtain ⟨rfl, hback⟩ := ih (List.not_mem_of_not_mem_cons hfront)
        (List.not_mem_of_not_mem_cons hfront') htail
      exact ⟨rfl, hback⟩

/-- What splitting at a class leaves: the runs without it, between the ends and its members. -/
theorem mem_splitOnP_iff {p : α → Bool} {text word : List α} : word ∈ text.splitOnP p ↔
    (∀ c ∈ word, p c = false) ∧ ∃ a b, text = a ++ (word ++ b) ∧ (∀ c ∈ a.getLast?, p c = true) ∧
      ∀ c ∈ b.head?, p c = true := by
  constructor
  · intro h
    induction hlength : text.length using Nat.strong_induction_on generalizing text with
    | _ n ih =>
      cases hfind : text.find? p with
      | none =>
        have hnone : ∀ c ∈ text, p c = false := by simpa using List.find?_eq_none.mp hfind
        rw [List.splitOnP_eq_singleton hnone, List.mem_singleton] at h
        subst h
        exact ⟨hnone, [], [], by simp, by simp, by simp⟩
      | some c =>
        obtain ⟨hc, front, back, rfl, hfront⟩ := List.find?_eq_some_iff_append.mp hfind
        have hfront : ∀ d ∈ front, p d = false := by simpa using hfront
        rw [List.splitOnP_append_cons_of_forall_mem hfront c hc, List.mem_cons] at h
        rcases h with rfl | h
        · exact ⟨hfront, [], c :: back, rfl, by simp, by simpa using hc⟩
        · obtain ⟨hword, a, b, rfl, ha, hb⟩ := ih back.length
            (by rw [← hlength, List.length_append, List.length_cons]; omega) h rfl
          refine ⟨hword, front ++ c :: a, b, by simp, ?_, hb⟩
          intro d hd
          rw [List.getLast?_append_of_ne_nil _ (List.cons_ne_nil _ _), List.getLast?_cons] at hd
          cases hlast : a.getLast? with
          | none =>
            rw [hlast] at hd
            obtain rfl : c = d := by simpa using hd
            exact hc
          | some e =>
            rw [hlast] at hd
            obtain rfl : e = d := by simpa using hd
            exact ha e hlast
  · rintro ⟨hword, a, b, rfl, ha, hb⟩
    have hback : word ∈ (word ++ b).splitOnP p := by
      cases b with
      | nil => simp [List.splitOnP_eq_singleton hword]
      | cons c b =>
        rw [List.splitOnP_append_cons_of_forall_mem hword c (hb c rfl)]
        exact List.mem_cons_self
    rcases List.eq_nil_or_concat a with rfl | ⟨a, c, rfl⟩
    · exact hback
    · have hc : p c = true := ha c (by simp)
      rw [List.concat_eq_append, List.append_assoc, List.singleton_append,
        List.splitOnP_append_cons _ _ hc]
      exact List.mem_append_right _ hback

/-- What splitting leaves does not hold the separator. -/
theorem not_mem_of_mem_splitOn [BEq α] [LawfulBEq α] {c : α} {text piece : List α}
    (h : piece ∈ text.splitOn c) : c ∉ piece := by
  intro hmem
  have hnot := (mem_splitOnP_iff.mp h).1 c hmem
  simp at hnot

end Splitting

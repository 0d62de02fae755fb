import Newsdeck.Ecma.Json

/-!
# Characters

`for (const character of text)` walks a string by code points: a surrogate pair is one character of
two units, every other unit is a character of its own, lone surrogates included.

* `flatten_characters` — the characters spell the text;
* `characters_append` — characters can be read piecewise wherever the cut does not part a pair;
* `splitOn_characters` — splitting at a character that is no surrogate commutes with reading.
-/

namespace Ecma

open Json

/-- The characters of a text. -/
def characters : Text → List Text
  | [] => []
  | [c] => [[c]]
  | c :: d :: text =>
      if isHighSurrogate c && isLowSurrogate d then [c, d] :: characters text
      else [c] :: characters (d :: text)

@[simp] theorem characters_nil : characters [] = [] := by rw [characters]

theorem not_high_of_low {c : ℕ} (h : isLowSurrogate c = true) : isHighSurrogate c = false := by
  simp only [isLowSurrogate, isHighSurrogate, Bool.and_eq_true, decide_eq_true_eq] at h ⊢
  simp only [Bool.and_eq_false_iff, decide_eq_false_iff_not]
  omega

theorem characters_pair {c d : ℕ} (hc : isHighSurrogate c = true) (hd : isLowSurrogate d = true)
    (text : Text) : characters (c :: d :: text) = [c, d] :: characters text := by
  rw [characters, hc, hd]
  rfl

/-- A unit that starts no pair is a character of its own. -/
theorem characters_cons {c : ℕ} {text : Text}
    (h : isHighSurrogate c = false ∨ ∀ d ∈ text.head?, isLowSurrogate d = false) :
    characters (c :: text) = [c] :: characters text := by
  cases text with
  | nil =>
    rw [characters, characters]
  | cons d text =>
    have hpair : (isHighSurrogate c && isLowSurrogate d) = false := by
      rcases h with hc | hd
      · rw [hc, Bool.false_and]
      · rw [hd d rfl, Bool.and_false]
    rw [characters, hpair]
    rfl

/-- Induction by characters. -/
@[elab_as_elim]
theorem characterInduction {motive : Text → Prop} (nil : motive [])
    (single : ∀ c text, (isHighSurrogate c = false ∨ ∀ d ∈ text.head?, isLowSurrogate d = false) →
      motive text → motive (c :: text))
    (pair : ∀ c d text, isHighSurrogate c = true → isLowSurrogate d = true → motive text →
      motive (c :: d :: text)) (text : Text) : motive text := by
  induction text using characters.induct with
  | case1 => exact nil
  | case2 c => exact single c [] (.inr fun d hd => by simp at hd) nil
  | case3 c d text hpair ih =>
    obtain ⟨hc, hd⟩ := Bool.and_eq_true_iff.mp hpair
    exact pair c d text hc hd ih
  | case4 c d text hpair ih =>
    refine single c (d :: text) ?_ ih
    rw [Bool.and_eq_true_iff, not_and_or] at hpair
    refine hpair.imp Bool.eq_false_of_not_eq_true fun hd e he => ?_
    rw [← Option.some.inj he]
    exact Bool.eq_false_of_not_eq_true hd

@[simp] theorem flatten_characters (text : Text) : (characters text).flatten = text := by
  induction text using characterInduction with
  | nil => rw [characters_nil, List.flatten_nil]
  | single c text hcut ih =>
    rw [characters_cons hcut, List.flatten_cons, ih]
    rfl
  | pair c d text hc hd ih =>
    rw [characters_pair hc hd, List.flatten_cons, ih]
    rfl

/-- No pair is parted at the cut between two texts. -/
def Apart (front back : Text) : Prop :=
  (∀ c ∈ front.getLast?, isHighSurrogate c = false) ∨ ∀ d ∈ back.head?, isLowSurrogate d = false

/-- A cut that parts no pair parts no character. -/
theorem characters_append {front back : Text} (h : Apart front back) :
    characters (front ++ back) = characters front ++ characters back := by
  induction front using characterInduction with
  | nil => rw [characters_nil, List.nil_append, List.nil_append]
  | single c front hcut ih =>
    have hrest : Apart front back := by
      refine h.imp_left fun hlast d hd => hlast d ?_
      rw [Option.mem_def] at hd
      rw [List.getLast?_cons, hd]
      rfl
    have hcut' : isHighSurrogate c = false ∨ ∀ d ∈ (front ++ back).head?,
        isLowSurrogate d = false := by
      cases front with
      | nil => exact h.imp_left fun hlast => hlast c rfl
      | cons d front => exact hcut
    rw [List.cons_append, characters_cons hcut', characters_cons hcut, ih hrest]
    rfl
  | pair c d front hc hd ih =>
    have hrest : Apart front back := by
      refine h.imp_left fun hlast e he => hlast e ?_
      rw [Option.mem_def] at he
      rw [List.getLast?_cons_cons, List.getLast?_cons, he]
      rfl
    rw [List.cons_append, List.cons_append, characters_pair hc hd, characters_pair hc hd, ih hrest]
    rfl

/-- What the first character leaves is read by itself. -/
theorem characters_eq_cons {text character : Text} {rest : List Text}
    (h : characters text = character :: rest) :
    text = character ++ rest.flatten ∧ characters rest.flatten = rest := by
  have hspelled : text = character ++ rest.flatten := by
    rw [← flatten_characters text, h, List.flatten_cons]
  refine ⟨hspelled, ?_⟩
  cases text with
  | nil => simp at h
  | cons c text =>
    by_cases hpair : isHighSurrogate c = false ∨ ∀ d ∈ text.head?, isLowSurrogate d = false
    · rw [characters_cons hpair] at h
      rw [← (List.cons.inj h).2, flatten_characters]
    · cases text with
      | nil => exact absurd (.inr fun d hd => by simp at hd) hpair
      | cons d text =>
        push Not at hpair
        obtain ⟨hhigh, e, he, hlow⟩ := hpair
        obtain rfl := Option.some.inj he
        rw [characters_pair (Bool.eq_true_of_not_eq_false hhigh)
          (Bool.eq_true_of_not_eq_false hlow)] at h
        rw [← (List.cons.inj h).2, flatten_characters]

theorem characters_eq_append {text : Text} {front back : List Text}
    (h : characters text = front ++ back) :
    text = front.flatten ++ back.flatten ∧ characters back.flatten = back := by
  refine ⟨by rw [← flatten_characters text, h, List.flatten_append], ?_⟩
  induction front generalizing text with
  | nil =>
    rw [List.nil_append] at h
    rw [← h, flatten_characters]
  | cons character front ih =>
    have hrest : characters (front ++ back).flatten = front ++ back := (characters_eq_cons h).2
    exact ih hrest

/-- Without high surrogates every unit is a character. -/
theorem characters_of_no_high {text : Text} (h : ∀ c ∈ text, isHighSurrogate c = false) :
    characters text = text.map fun c => [c] := by
  induction text with
  | nil => exact characters_nil
  | cons c text ih =>
    rw [characters_cons (.inl (h c List.mem_cons_self)), ih fun d hd => h d (List.mem_cons_of_mem _ hd)]
    rfl

/-- The text is cut around a unit that is no surrogate. -/
theorem characters_append_cons {c : ℕ} (hhigh : isHighSurrogate c = false)
    (hlow : isLowSurrogate c = false) (front back : Text) :
    characters (front ++ c :: back) = characters front ++ [c] :: characters back := by
  rw [characters_append, characters_cons (.inl hhigh)]
  refine .inr fun d hd => ?_
  rw [← Option.some.inj hd]
  exact hlow

theorem mem_characters_flatten {text : Text} {character : Text} (h : character ∈ characters text)
    {c : ℕ} (hc : c ∈ character) : c ∈ text := by
  have := List.mem_flatten.mpr ⟨character, h, hc⟩
  rwa [flatten_characters] at this

@[simp] theorem characters_eq_nil_iff {text : Text} : characters text = [] ↔ text = [] := by
  constructor
  · intro h
    have := flatten_characters text
    rw [h] at this
    exact this.symm
  · rintro rfl
    exact characters_nil

/-- Splitting at a character that is no surrogate. -/
theorem splitOn_characters {c : ℕ} (hhigh : isHighSurrogate c = false)
    (hlow : isLowSurrogate c = false) (text : Text) :
    (characters text).splitOn [c] = (text.splitOn c).map characters := by
  induction hlength : text.length using Nat.strong_induction_on generalizing text with
  | _ n ih =>
    have hfree : ∀ front : Text, c ∉ front → [c] ∉ characters front := fun front hfront hmem =>
      hfront (mem_characters_flatten hmem List.mem_cons_self)
    by_cases hmem : c ∈ text
    · obtain ⟨front, back, rfl, hfront⟩ := List.eq_append_cons_of_mem hmem
      have hshorter : back.length < n := by
        rw [← hlength, List.length_append, List.length_cons]
        omega
      rw [characters_append_cons hhigh hlow,
        List.splitOn_append_cons_self_of_not_mem (hfree front hfront),
        List.splitOn_append_cons_self_of_not_mem hfront, ih _ hshorter back rfl, List.map_cons]
    · rw [List.splitOn_eq_singleton hmem, List.splitOn_eq_singleton (hfree text hmem)]
      rfl

/-- What is not the separator stands in some piece. -/
theorem mem_iff_exists_mem_splitOn {α : Type} [BEq α] [LawfulBEq α] {c x : α} (hne : x ≠ c)
    {text : List α} : x ∈ text ↔ ∃ piece ∈ text.splitOn c, x ∈ piece := by
  induction hlength : text.length using Nat.strong_induction_on generalizing text with
  | _ n ih =>
    by_cases hmem : c ∈ text
    · obtain ⟨front, back, rfl, hfront⟩ := List.eq_append_cons_of_mem hmem
      have hback : x ∈ back ↔ ∃ piece ∈ back.splitOn c, x ∈ piece :=
        ih _ (by rw [← hlength, List.length_append, List.length_cons]; omega) rfl
      rw [List.splitOn_append_cons_self_of_not_mem hfront, List.mem_append, List.mem_cons, hback]
      simp [hne]
    · simp [List.splitOn_eq_singleton hmem]

theorem mem_characters {text character : Text} (h : character ∈ characters text) :
    (∃ c, character = [c]) ∨
      ∃ c d, character = [c, d] ∧ isHighSurrogate c = true ∧ isLowSurrogate d = true := by
  induction text using characterInduction with
  | nil =>
    rw [characters_nil] at h
    exact absurd h List.not_mem_nil
  | single c text hcut ih =>
    rw [characters_cons hcut, List.mem_cons] at h
    exact h.elim (fun h => .inl ⟨c, h⟩) ih
  | pair c d text hc hd ih =>
    rw [characters_pair hc hd, List.mem_cons] at h
    exact h.elim (fun h => .inr ⟨c, d, h, hc, hd⟩) ih

/-- Exchanging units that are no surrogates against others. -/
theorem characters_map {f : ℕ → ℕ}
    (hf : ∀ c, f c = c ∨ (isHighSurrogate c = false ∧ isLowSurrogate c = false ∧
      isHighSurrogate (f c) = false ∧ isLowSurrogate (f c) = false)) (text : Text) :
    characters (text.map f) = (characters text).map (List.map f) := by
  have hhigh : ∀ c, isHighSurrogate (f c) = isHighSurrogate c := by
    intro c
    rcases hf c with h | ⟨h, -, h', -⟩
    · rw [h]
    · rw [h, h']
  have hlow : ∀ c, isLowSurrogate (f c) = isLowSurrogate c := by
    intro c
    rcases hf c with h | ⟨-, h, -, h'⟩
    · rw [h]
    · rw [h, h']
  induction text using characterInduction with
  | nil => rw [List.map_nil, characters_nil, List.map_nil]
  | single c text hcut ih =>
    have hcut' : isHighSurrogate (f c) = false ∨ ∀ d ∈ (text.map f).head?,
        isLowSurrogate d = false := by
      rw [hhigh]
      refine hcut.imp_right fun hlast d hd => ?_
      rw [Option.mem_def, List.head?_map, Option.map_eq_some_iff] at hd
      obtain ⟨e, he, rfl⟩ := hd
      rw [hlow]
      exact hlast e he
    rw [List.map_cons, characters_cons hcut', characters_cons hcut, ih]
    rfl
  | pair c d text hc hd ih =>
    rw [List.map_cons, List.map_cons, characters_pair ((hhigh c).trans hc) ((hlow d).trans hd),
      characters_pair hc hd, ih]
    rfl

end Ecma

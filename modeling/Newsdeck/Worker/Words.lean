import Newsdeck.Library.Splitting
import Newsdeck.Worker.References

/-!
# The words of a text

Collapsing whitespace and trimming leaves the words of a text with a space between any two of them.

* `trim_collapseSpace` — in terms of words;
* `join_space_iff` — where the spaces stand;
* `stripHtmlTags_untagged` — no tag is left;
* `feedText_iff` — when a text is decoded as what it stands for, and cut between words or within
  one.
-/

namespace Newsdeck.Worker

open Ecma Loop

/-- The words of a text. -/
def words (text : Text) : List Text := (text.splitOnP isSpace).filter (· ≠ [])

/-! ### Words -/

theorem collapseSpace_true (t : Text) : collapseSpace true t = collapseSpace false
    (t.dropWhile isSpace) := by
  induction t with
  | nil => rfl
  | cons c t ih =>
    by_cases hc : isSpace c = true
    · rw [List.dropWhile_cons_of_pos hc, ← ih]
      simp [collapseSpace, hc]
    · rw [List.dropWhile_cons_of_neg hc]
      simp [collapseSpace, hc]

theorem collapseSpace_word {w : Text} (h : ∀ c ∈ w, isSpace c ≠ true) (u : Text) :
    collapseSpace false (w ++ u) = w ++ collapseSpace false u := by
  induction w with
  | nil => rfl
  | cons c w ih =>
    obtain ⟨hc, hw⟩ := List.forall_mem_cons.mp h
    rw [List.cons_append, collapseSpace, if_neg hc, ih hw]
    rfl

theorem words_space {c : ℕ} (hc : isSpace c = true) (t : Text) : words (c :: t) = words t := by
  unfold words
  rw [List.splitOnP_cons_eq_if_modifyHead, if_pos hc]
  rfl

theorem words_dropWhile (t : Text) : words (t.dropWhile isSpace) = words t := by
  induction t with
  | nil => rfl
  | cons c t ih =>
    by_cases hc : isSpace c = true
    · rw [List.dropWhile_cons_of_pos hc, ih, words_space hc]
    · rw [List.dropWhile_cons_of_neg hc]

theorem words_word {w : Text} (hne : w ≠ []) (h : ∀ c ∈ w, isSpace c ≠ true) : words w = [w] := by
  unfold words
  rw [List.splitOnP_eq_singleton fun c hc => by simpa using h c hc]
  simp [hne]

theorem words_cons {w : Text} {c : ℕ} (hne : w ≠ []) (h : ∀ d ∈ w, isSpace d ≠ true)
    (hc : isSpace c = true) (t : Text) : words (w ++ c :: t) = w :: words t := by
  unfold words
  rw [List.splitOnP_append_cons_of_forall_mem (fun d hd => by simpa using h d hd) c hc]
  simp [hne]

theorem mem_words {text word : Text} (h : word ∈ words text) :
    word ≠ [] ∧ ∀ c ∈ word, isSpace c ≠ true := by
  obtain ⟨hmem, hne⟩ := List.mem_filter.mp h
  refine ⟨by simpa using hne, fun c hc => ?_⟩
  rw [(Splitting.mem_splitOnP_iff.mp hmem).1 c hc]
  exact Bool.false_ne_true

theorem words_ne_nil {c : ℕ} (hc : isSpace c ≠ true) (t : Text) : words (c :: t) ≠ [] := by
  unfold words
  rw [List.splitOnP_cons_eq_if_modifyHead, if_neg hc]
  cases hparts : t.splitOnP isSpace with
  | nil => exact absurd hparts (List.splitOnP_ne_nil _ _)
  | cons first rest => simp

theorem join_words_ne_nil {text : Text} (h : words text ≠ []) : join [32] (words text) ≠ [] := by
  cases hwords : words text with
  | nil => exact absurd hwords h
  | cons first rest =>
    have hfirst : first ≠ [] := (mem_words (hwords ▸ List.mem_cons_self)).1
    cases rest with
    | nil => simpa [join] using hfirst
    | cons second rest => simp [join, List.intercalate_cons_cons]

/-- `text.trimEnd()`. -/
def trimEnd (text : Text) : Text := (text.reverse.dropWhile isSpace).reverse

theorem trimEnd_append {u : Text} (h : trimEnd u ≠ []) (v : Text) :
    trimEnd (v ++ u) = v ++ trimEnd u := by
  have hne : u.reverse.dropWhile isSpace ≠ [] := fun hnil => h (by rw [trimEnd, hnil]; rfl)
  unfold trimEnd
  rw [List.reverse_append, List.dropWhile_append, if_neg (by simpa using hne), List.reverse_append,
    List.reverse_reverse]

theorem trimEnd_word {w : Text} (h : ∀ c ∈ w, isSpace c ≠ true) : trimEnd w = w := by
  unfold trimEnd
  have hself : w.reverse.dropWhile isSpace = w.reverse := by
    cases hw : w.reverse with
    | nil => rfl
    | cons c rest =>
      exact List.dropWhile_cons_of_neg (h c (List.mem_reverse.mp (hw ▸ List.mem_cons_self)))
  rw [hself, List.reverse_reverse]

theorem trimEnd_space {w : Text} (h : ∀ c ∈ w, isSpace c ≠ true) : trimEnd (w ++ [32]) = w := by
  have hself := trimEnd_word h
  unfold trimEnd at hself ⊢
  rw [List.reverse_append, List.reverse_singleton, List.singleton_append,
    List.dropWhile_cons_of_pos (by decide), hself]

/-- What a text without a space in front is collapsed to. -/
theorem trimEnd_collapseSpace (t : Text) : (∀ c, t.head? = some c → isSpace c ≠ true) →
    trimEnd (collapseSpace false t) = join [32] (words t) := by
  obtain ⟨n, hn⟩ : ∃ n, t.length ≤ n := ⟨_, le_rfl⟩
  induction n generalizing t with
  | zero =>
    obtain rfl := List.length_eq_zero_iff.mp (Nat.le_zero.mp hn)
    exact fun _ => rfl
  | succ n ih =>
    intro hhead
    cases t with
    | nil => rfl
    | cons c t =>
      have hc : isSpace c ≠ true := hhead c rfl
      -- The first word, and what follows it.
      obtain ⟨w, hw⟩ : ∃ w, w = (c :: t).takeWhile fun d => !isSpace d := ⟨_, rfl⟩
      have hword : ∀ d ∈ w, isSpace d ≠ true := by
        intro d hd
        rw [hw] at hd
        simpa using List.all_eq_true.mp List.all_takeWhile d hd
      have hne : w ≠ [] := by
        rw [hw, List.takeWhile_cons_of_pos (by simpa using hc)]
        simp
      have hsplit : w ++ (c :: t).dropWhile (fun d => !isSpace d) = c :: t := by
        rw [hw]
        exact List.takeWhile_append_dropWhile
      rw [← hsplit]
      cases hrest : (c :: t).dropWhile fun d => !isSpace d with
      | nil =>
        have hcollapsed : collapseSpace false (w ++ []) = w := by
          rw [collapseSpace_word hword]
          exact List.append_nil w
        rw [hcollapsed, List.append_nil, words_word hne hword, trimEnd_word hword]
        exact (List.append_nil w).symm
      | cons d rest =>
        have hd : isSpace d = true := by
          have := List.head?_dropWhile_not (fun d => !isSpace d) (c :: t)
          simpa [hrest] using this
        have hcollapsed : collapseSpace false (w ++ d :: rest) =
            w ++ 32 :: collapseSpace false (rest.dropWhile isSpace) := by
          rw [collapseSpace_word hword, collapseSpace, if_pos hd, collapseSpace_true]
          rfl
        have hlength : (rest.dropWhile isSpace).length ≤ n := by
          have hsum := congrArg List.length hsplit
          have hle := (List.dropWhile_sublist (l := rest) isSpace).length_le
          rw [hrest, List.length_append, List.length_cons] at hsum
          omega
        have hlater := ih (rest.dropWhile isSpace) hlength fun e he => by
          have := List.head?_dropWhile_not isSpace rest
          simpa [he] using this
        rw [hcollapsed, words_cons hne hword hd, ← words_dropWhile]
        cases hnext : rest.dropWhile isSpace with
        | nil =>
          have hlast : join [32] [w] = w := List.append_nil w
          exact (trimEnd_space hword).trans hlast.symm
        | cons e later =>
          rw [hnext] at hlater
          have he : isSpace e ≠ true := by
            have := List.head?_dropWhile_not isSpace rest
            simpa [hnext] using this
          have hmore := words_ne_nil he later
          rw [List.append_cons, trimEnd_append (hlater ▸ join_words_ne_nil hmore), hlater]
          cases hwords : words (e :: later) with
          | nil => exact absurd hwords hmore
          | cons second more => rw [join, join, List.intercalate_cons_cons]

theorem trim_collapseSpace (t : Text) : trim (collapseSpace false t) = join [32] (words t) := by
  have hfront : (collapseSpace false t).dropWhile isSpace =
      collapseSpace false (t.dropWhile isSpace) := by
    cases t with
    | nil => rfl
    | cons c t =>
      by_cases hc : isSpace c = true
      · rw [collapseSpace, if_pos hc, List.dropWhile_cons_of_pos hc, collapseSpace_true]
        show List.dropWhile isSpace (32 :: _) = _
        rw [List.dropWhile_cons_of_pos (by decide)]
        cases hrest : t.dropWhile isSpace with
        | nil => rfl
        | cons d rest =>
          have hd : isSpace d ≠ true := by
            have := List.head?_dropWhile_not isSpace t
            simpa [hrest] using this
          rw [collapseSpace, if_neg hd, List.dropWhile_cons_of_neg hd]
      · rw [List.dropWhile_cons_of_neg hc, collapseSpace, if_neg hc, List.dropWhile_cons_of_neg hc]
  show trimEnd ((collapseSpace false t).dropWhile isSpace) = _
  rw [hfront, trimEnd_collapseSpace _ fun c hc => ?_, words_dropWhile]
  have := List.head?_dropWhile_not isSpace t
  simpa [hc] using this

/-! ### Where the spaces stand -/

/-- A unit of whitespace stands at the position. -/
def SpaceAt (text : Text) (i : ℕ) : Prop := ∃ c, text[i]? = some c ∧ isSpace c = true

/-- The length of so many words, with a space after each. -/
def spaced (ws : List Text) (k : ℕ) : ℕ := ((ws.take k).map fun w => w.length + 1).sum

theorem spaceAt_take {text : Text} {limit i : ℕ} :
    SpaceAt (text.take limit) i ↔ i < limit ∧ SpaceAt text i := by
  unfold SpaceAt
  rw [List.getElem?_take]
  by_cases hi : i < limit
  · simp [hi]
  · simp [hi]

theorem spaceAt_word {w u : Text} (h : ∀ c ∈ w, isSpace c ≠ true) {i : ℕ} :
    SpaceAt (w ++ 32 :: u) i ↔ i = w.length ∨ w.length < i ∧ SpaceAt u (i - w.length - 1) := by
  unfold SpaceAt
  rcases lt_trichotomy i w.length with hi | rfl | hi
  · rw [List.getElem?_append_left hi]
    constructor
    · rintro ⟨c, hc, hspace⟩
      exact absurd hspace (h c (List.mem_of_getElem? hc))
    · omega
  · rw [List.getElem?_append_right le_rfl, Nat.sub_self]
    exact iff_of_true ⟨32, rfl, by decide⟩ (.inl rfl)
  · obtain ⟨j, rfl⟩ : ∃ j, i = w.length + 1 + j := ⟨_, (Nat.add_sub_cancel' hi).symm⟩
    have hj : w.length + 1 + j - w.length = j + 1 := by omega
    rw [List.getElem?_append_right (by omega), hj, List.getElem?_cons_succ, Nat.add_sub_cancel]
    exact ⟨fun hspace => .inr ⟨hi, hspace⟩, fun hspace => (hspace.resolve_left (by omega)).2⟩

section Joined

variable {ws : List Text} (hws : ∀ w ∈ ws, w ≠ [] ∧ ∀ c ∈ w, isSpace c ≠ true)
include hws

/-- The spaces stand after the words, but for the last. -/
theorem spaceAt_join (i : ℕ) :
    SpaceAt (join [32] ws) i ↔ ∃ k, 0 < k ∧ k < ws.length ∧ i + 1 = spaced ws k := by
  unfold join
  induction ws generalizing i with
  | nil => simp [SpaceAt]
  | cons first rest ih =>
    obtain ⟨⟨-, hfirst⟩, hrest⟩ := List.forall_mem_cons.mp hws
    cases rest with
    | nil =>
      constructor
      · rintro ⟨c, hc, hspace⟩
        have hmem : c ∈ first := by simpa using List.mem_of_getElem? hc
        exact absurd hspace (hfirst c hmem)
      · rintro ⟨k, hk, hlt, -⟩
        rw [List.length_singleton] at hlt
        omega
    | cons second rest =>
      rw [List.intercalate_cons_cons, List.append_assoc, List.singleton_append, spaceAt_word hfirst,
        ih hrest]
      constructor
      · rintro (rfl | ⟨hi, k, hk, hlt, hsum⟩)
        · exact ⟨1, by decide, by simp, by simp [spaced]⟩
        · refine ⟨k + 1, by omega, by simpa using hlt, ?_⟩
          have hcons : spaced (first :: second :: rest) (k + 1) =
              first.length + 1 + spaced (second :: rest) k := by simp [spaced]
          omega
      · rintro ⟨k, hk, hlt, hsum⟩
        obtain ⟨k, rfl⟩ : ∃ j, k = j + 1 := ⟨k - 1, by omega⟩
        have hcons : spaced (first :: second :: rest) (k + 1) =
            first.length + 1 + spaced (second :: rest) k := by simp [spaced]
        cases k with
        | zero =>
          simp only [spaced, List.take_zero, List.map_nil, List.sum_nil] at hcons
          rw [spaced] at hsum
          exact .inl (by omega)
        | succ k =>
          have hpos : 0 < spaced (second :: rest) (k + 1) := by simp [spaced]
          exact .inr ⟨by omega, k + 1, by omega, by simpa using hlt, by omega⟩

theorem spaced_succ {k : ℕ} (hk : k < ws.length) : spaced ws k + 2 ≤ spaced ws (k + 1) := by
  have hword := List.length_pos_iff.mpr (hws ws[k] (List.getElem_mem hk)).1
  have hsum : spaced ws (k + 1) = spaced ws k + (ws[k].length + 1) := by
    unfold spaced
    rw [List.take_add_one, List.getElem?_eq_getElem hk, Option.toList_some, List.map_append,
      List.sum_append, List.map_singleton, List.sum_singleton]
  omega

theorem spaced_lt {k l : ℕ} (hkl : k < l) (hl : l ≤ ws.length) : spaced ws k + 2 ≤ spaced ws l := by
  induction l, hkl using Nat.le_induction with
  | base => exact spaced_succ hws hl
  | succ l hle ih =>
    have hbefore := ih (by omega)
    have hlast := spaced_succ hws hl
    omega

theorem length_join_words (hne : ws ≠ []) : (join [32] ws).length + 1 = spaced ws ws.length := by
  unfold join
  induction ws with
  | nil => exact absurd rfl hne
  | cons first rest ih =>
    cases rest with
    | nil => simp [spaced]
    | cons second rest =>
      have hlater := ih (fun w hw => hws w (List.mem_cons_of_mem _ hw)) (by simp)
      rw [List.intercalate_cons_cons, List.length_append, List.length_append]
      simp [spaced] at hlater ⊢
      omega

/-- No whitespace at the front, and none beside another. -/
theorem not_spaceAt_zero : ¬ SpaceAt (join [32] ws) 0 := by
  intro h
  obtain ⟨k, hk, hlt, hsum⟩ := (spaceAt_join hws 0).mp h
  have hfirst := spaced_lt hws hk hlt.le
  omega

theorem not_spaceAt_twice (i : ℕ) :
    ¬ (SpaceAt (join [32] ws) i ∧ SpaceAt (join [32] ws) (i + 1)) := by
  rintro ⟨h, h'⟩
  obtain ⟨k, -, hlt, hsum⟩ := (spaceAt_join hws i).mp h
  obtain ⟨l, -, hlt', hsum'⟩ := (spaceAt_join hws (i + 1)).mp h'
  rcases lt_trichotomy k l with hkl | rfl | hkl
  · have := spaced_lt hws hkl hlt'.le
    omega
  · omega
  · have := spaced_lt hws hkl hlt.le
    omega

/-- The text is cut behind a space exactly when the limit is reached there. -/
theorem cut_iff (limit : ℕ) :
    (∀ i, i + 1 = ((join [32] ws).take limit).length → ¬ SpaceAt ((join [32] ws).take limit) i) ↔
      ∀ k, 0 < k → k < ws.length → limit ≠ spaced ws k := by
  rw [List.length_take]
  have hshort : ∀ k, k < ws.length → spaced ws k < (join [32] ws).length := by
    intro k hk
    have hlast := spaced_lt hws hk le_rfl
    have hlength := length_join_words hws (List.ne_nil_of_length_pos (by omega))
    omega
  constructor
  · rintro h k hk hlt rfl
    have hsum := hshort k hlt
    have hfirst := spaced_lt hws hk hlt.le
    refine h (spaced ws k - 1) (by omega) (spaceAt_take.mpr ⟨by omega, ?_⟩)
    exact (spaceAt_join hws _).mpr ⟨k, hk, hlt, by omega⟩
  · intro h i hi hspace
    obtain ⟨hlimit, hspace⟩ := spaceAt_take.mp hspace
    obtain ⟨k, hk, hlt, hsum⟩ := (spaceAt_join hws i).mp hspace
    have hbefore := hshort k hlt
    exact h k hk hlt (by omega)

end Joined

/-! ### Tags -/

/-- No `<` stands before a `>`. -/
def Untagged (text : Text) : Prop := text.Pairwise fun c d => ¬ (c = 60 ∧ d = 62)

theorem mem_dropTags (t : Text) : ∀ inside, ∀ c ∈ dropTags inside t, c ∈ t ∨ c = 32 := by
  induction t with
  | nil =>
    intro inside c hc
    cases inside <;> cases hc
  | cons first t ih =>
    intro inside c hc
    cases inside with
    | true =>
      unfold dropTags at hc
      split at hc
      · exact (ih false c hc).imp_left (List.mem_cons_of_mem _)
      · exact (ih true c hc).imp_left (List.mem_cons_of_mem _)
    | false =>
      unfold dropTags at hc
      split at hc
      · rcases List.mem_cons.mp hc with rfl | hc
        · exact .inr rfl
        · exact (ih true c hc).imp_left (List.mem_cons_of_mem _)
      · rcases List.mem_cons.mp hc with rfl | hc
        · exact .inl List.mem_cons_self
        · exact (ih false c hc).imp_left (List.mem_cons_of_mem _)

/-- A `<` that is left has no `>` behind it. -/
theorem untagged_dropTags (t : Text) : ∀ inside, Untagged (dropTags inside t) := by
  induction t with
  | nil =>
    intro inside
    cases inside <;> exact List.Pairwise.nil
  | cons first t ih =>
    intro inside
    cases inside with
    | true =>
      unfold dropTags
      split
      · exact ih false
      · exact ih true
    | false =>
      unfold dropTags
      split
      · exact List.pairwise_cons.mpr ⟨fun d _ h => absurd h.1 (by decide), ih true⟩
      · rename_i hopen
        refine List.pairwise_cons.mpr ⟨?_, ih false⟩
        rintro d hd ⟨rfl, rfl⟩
        rcases mem_dropTags t false 62 hd with hmem | heq
        · exact hopen ⟨rfl, hmem⟩
        · cases heq

/-- Collapsing replaces whitespace by spaces, and drops some of these. -/
theorem collapseSpace_sublist (t : Text) : ∀ replaced,
    (collapseSpace replaced t).Sublist (t.map fun c => if isSpace c then 32 else c) := by
  induction t with
  | nil =>
    intro replaced
    cases replaced <;> exact List.Sublist.slnil
  | cons c t ih =>
    intro replaced
    rw [List.map_cons]
    unfold collapseSpace
    split
    · cases replaced with
      | true => exact (ih true).cons _
      | false => exact (ih true).cons_cons _
    · exact (ih false).cons_cons _

theorem Untagged.collapsed {t : Text} (h : Untagged t) :
    Untagged (trim (collapseSpace false t)) := by
  have hmap : Untagged (t.map fun c => if isSpace c then 32 else c) := by
    refine List.pairwise_map.mpr (h.imp fun {c d} hcd => ?_)
    rintro ⟨hc, hd⟩
    by_cases hspace : isSpace c = true
    · rw [if_pos hspace] at hc
      cases hc
    · by_cases hspace' : isSpace d = true
      · rw [if_pos hspace'] at hd
        cases hd
      · rw [if_neg hspace] at hc
        rw [if_neg hspace'] at hd
        exact hcd ⟨hc, hd⟩
  refine hmap.sublist (List.Sublist.trans ?_ (collapseSpace_sublist t false))
  have hback :=
    (List.dropWhile_sublist (l := ((collapseSpace false t).dropWhile isSpace).reverse)
      isSpace).reverse
  rw [List.reverse_reverse] at hback
  exact hback.trans (List.dropWhile_sublist _)

/-! ### Feed text -/

/-- What is asked of a text that is shown: its length, no tags, and whitespace only between
words. -/
structure Tidy (limit : ℕ) (out : Text) : Prop where
  short : out.length ≤ limit
  untagged : ∀ before inside after, out ≠ before ++ 60 :: (inside ++ 62 :: after)
  single : ∀ i, ¬ (SpaceAt out i ∧ SpaceAt out (i + 1))
  front : ¬ SpaceAt out 0
  back : ∀ i, i + 1 = out.length → ¬ SpaceAt out i

/-- The words of a feed's text: its references are read as what they stand for, and its tags
dropped. -/
def feedWords (text : Text) : List Text := words (stripHtmlTags (decoded text))

section Feeds

variable [BuiltIns]

theorem sanitizeText_eq {text decodedText : Text} (h : decodeEntities text = .ok decodedText)
    (limit : ℕ) :
    sanitizeText (some text) limit =
      .ok ((join [32] (words (stripHtmlTags decodedText))).take limit) := by
  unfold sanitizeText
  rw [Option.getD_some]
  split
  · rename_i hnil
    subst hnil
    obtain rfl := Except.ok.inj h
    simp [stripHtmlTags, dropTags, words, join]
  · rw [h]
    show Except.ok (if _ then _ else _) = _
    rw [trim_collapseSpace]
    split
    · rfl
    · rename_i hshort
      rw [List.take_of_length_le (not_lt.mp hshort)]

omit [BuiltIns] in
/-- A tidy text is what is left, unless it is cut behind a space. -/
theorem tidy_take_iff (t : Text) (limit : ℕ) : Tidy limit
    ((join [32] (words (stripHtmlTags t))).take limit) ↔
    ∀ k, 0 < k → k < (words (stripHtmlTags t)).length →
      limit ≠ spaced (words (stripHtmlTags t)) k := by
  have hws : ∀ w ∈ words (stripHtmlTags t), w ≠ [] ∧ ∀ c ∈ w, isSpace c ≠ true := fun w => mem_words
  refine ⟨fun h => (cut_iff hws limit).mp h.back,
    fun h => ⟨?_, ?_, ?_, ?_, (cut_iff hws limit).mpr h⟩⟩
  · rw [List.length_take]
    exact Nat.min_le_left _ _
  · intro before inside after heq
    have huntagged : Untagged ((join [32] (words (stripHtmlTags t))).take limit) := by
      rw [← trim_collapseSpace]
      exact (untagged_dropTags t false).collapsed.sublist (List.take_sublist _ _)
    rw [heq] at huntagged
    have htail := (List.pairwise_append.mp huntagged).2.1
    exact (List.pairwise_cons.mp htail).1 62 (by simp) ⟨rfl, rfl⟩
  · rintro i ⟨h, h'⟩
    exact not_spaceAt_twice hws i ⟨(spaceAt_take.mp h).2, (spaceAt_take.mp h').2⟩
  · exact fun h => not_spaceAt_zero hws (spaceAt_take.mp h).2

/-- **Feed text.**  The references of a text are replaced by what they stand for, and its words are
shown as they should be, exactly when no reference is misread and the limit is not reached right
behind a space. -/
theorem feedText_iff (hprints : PrintsNames) (text : Text) (limit : ℕ) :
    (decodeEntities text = .ok (decoded text) ∧
      ∃ out, sanitizeText (some text) limit = .ok out ∧ Tidy limit out) ↔
    (∀ token ∈ tokens text, ¬ Misread token) ∧
      ∀ k, 0 < k → k < (feedWords text).length → limit ≠ spaced (feedWords text) k := by
  rw [decodeEntities_iff hprints]
  refine and_congr_right fun hread => ?_
  have hdecoded := (decodeEntities_iff hprints text).mpr hread
  rw [sanitizeText_eq hdecoded limit]
  constructor
  · rintro ⟨out, hout, htidy⟩
    obtain rfl := Except.ok.inj hout
    exact (tidy_take_iff _ limit).mp htidy
  · exact fun h => ⟨_, rfl, (tidy_take_iff _ limit).mpr h⟩

end Feeds

/-- An engine that prints its functions on one line. -/
@[reducible] def nativeCode : BuiltIns where
  functionText name := lit "function " ++ name ++ lit "() \x7b [native code] \x7d"

/-- A name, a number, and what is neither. -/
theorem feedText_iff_plain :
    @decodeEntities nativeCode (lit "Q&amp;A &#169; &nope;") =
      .ok (decoded (lit "Q&amp;A &#169; &nope;")) := by
  refine ((@feedText_iff nativeCode (fun name => ⟨_, rfl⟩) (lit "Q&amp;A &#169; &nope;") 5).mpr
    ⟨by decide +kernel, fun k hk hlt => ?_⟩).1
  have hall : ∀ k < (feedWords (lit "Q&amp;A &#169; &nope;")).length, 0 < k →
      5 ≠ spaced (feedWords (lit "Q&amp;A &#169; &nope;")) k := by decide +kernel
  exact hall k hlt hk

/-- A name of `Object.prototype`, a number beyond the code points, and a text cut behind a space. -/
theorem misread_texts :
    @decodeEntities nativeCode (lit "&toString;") ≠ .ok (decoded (lit "&toString;")) ∧
    @decodeEntities nativeCode (lit "&#1114112;") ≠ .ok (decoded (lit "&#1114112;")) ∧
    ¬ ∃ out, @sanitizeText nativeCode (some (lit "to be")) 3 = .ok out ∧ Tidy 3 out := by
  refine ⟨by decide +kernel, by decide +kernel, ?_⟩
  rintro ⟨out, hout, htidy⟩
  have hcut : @sanitizeText nativeCode (some (lit "to be")) 3 = .ok (lit "to ") := by decide +kernel
  rw [hcut] at hout
  obtain rfl := Except.ok.inj hout
  exact htidy.back 2 rfl ⟨32, rfl, by decide⟩

end Newsdeck.Worker

import Newsdeck.Loop.GlobMeaning

/-!
# Segment patterns that are not careful

For each way in which a segment pattern can fail to be careful there is a text on which units and
characters part (`differs_of_not_careful`).  All of them are built from the shortest text that fits
the pattern, with a surrogate pair where the pattern goes wrong:

* `differs_of_high`, `differs_of_low` — a lone half beside a wildcard meets the other half;
* `differs_of_two` — two `?` share the halves of one character;
* `differs_of_alone` — a `?` without a `*` beside it leaves a half over.
-/

namespace Newsdeck.Loop

open Ecma Ecma.Json Wildcards

/-! ### The shortest text -/

/-- The shortest text that fits a segment pattern: nothing for a `*` and an `x` for a `?`. -/
def fill (segment : Text) : Text :=
  (segment.filter fun c => c ≠ 42).map fun c => if c = 63 then 120 else c

theorem fill_star (segment : Text) : fill (42 :: segment) = fill segment := rfl

theorem fill_cons {c : ℕ} (h : c ≠ 42) (segment : Text) :
    fill (c :: segment) = (if c = 63 then 120 else c) :: fill segment := by
  rw [fill, List.filter_cons_of_pos (by simpa using h), List.map_cons]
  rfl

theorem fits_fill (segment : Text) : FitsUnits segment (fill segment) := by
  induction segment with
  | nil => exact .nil
  | cons c segment ih =>
    rw [FitsUnits, List.map_cons, unitPiece]
    by_cases hstar : c = 42
    · rw [if_pos hstar, hstar, fill_star]
      exact .run [] ih
    · rw [if_neg hstar, fill_cons hstar]
      by_cases hmark : c = 63
      · rw [if_pos hmark]
        exact .one trivial ih
      · rw [if_neg hmark, if_neg hmark]
        exact .one rfl ih

theorem length_fill (segment : Text) : (fill segment).length = least (segment.map unitPiece) := by
  rw [fill, List.length_map, least_units, List.countP_eq_length_filter]

theorem slash_not_mem_fill {segment : Text} (h : 47 ∉ segment) : 47 ∉ fill segment := by
  intro hmem
  obtain ⟨c, hc, heq⟩ := List.mem_map.mp hmem
  have hc' := (List.mem_filter.mp hc).1
  split at heq
  · exact absurd heq (by decide)
  · rw [heq] at hc'
    exact h hc'

/-- The same in characters. -/
def fillCharacters (pattern : List Text) : List Text :=
  (pattern.filter fun c => c ≠ lit "*").map fun c => if c = lit "?" then lit "x" else c

theorem fillCharacters_star (pattern : List Text) :
    fillCharacters ([42] :: pattern) = fillCharacters pattern := rfl

theorem fillCharacters_single {c : ℕ} (h : c ≠ 42) (pattern : List Text) :
    fillCharacters ([c] :: pattern) = [if c = 63 then 120 else c] :: fillCharacters pattern := by
  have hstar : [c] ≠ lit "*" := fun heq => h (List.cons.inj heq).1
  have hmark : [c] = lit "?" ↔ c = 63 :=
    ⟨fun heq => (List.cons.inj heq).1, fun heq => by rw [heq]; rfl⟩
  rw [fillCharacters, List.filter_cons_of_pos (by simpa using hstar), List.map_cons]
  simp only [hmark]
  split <;> rfl

theorem fillCharacters_pair (c d : ℕ) (pattern : List Text) :
    fillCharacters ([c, d] :: pattern) = [c, d] :: fillCharacters pattern := by
  have htwo : ∀ e : ℕ, [c, d] ≠ [e] := by simp
  have hstar : [c, d] ≠ lit "*" := htwo 42
  have hmark : [c, d] ≠ lit "?" := htwo 63
  rw [fillCharacters, List.filter_cons_of_pos (by simpa using hstar), List.map_cons, if_neg hmark]
  rfl

theorem fits_fillCharacters (pattern : List Text) :
    Fits (pattern.map characterPiece) (fillCharacters pattern) := by
  induction pattern with
  | nil => exact .nil
  | cons c pattern ih =>
    rw [List.map_cons, characterPiece, fillCharacters]
    by_cases hstar : c = lit "*"
    · rw [if_pos hstar, List.filter_cons_of_neg (by simpa using hstar)]
      exact .run [] ih
    · rw [if_neg hstar, List.filter_cons_of_pos (by simpa using hstar), List.map_cons]
      by_cases hmark : c = lit "?"
      · rw [if_pos hmark]
        exact .one trivial ih
      · rw [if_neg hmark, if_neg hmark]
        exact .one rfl ih

/-- No high surrogate stands right before a wildcard. -/
def HighApart (segment : Text) : Prop :=
  ∀ front c w back, segment = front ++ c :: w :: back → isWildcard w = true →
    isHighSurrogate c = false

theorem HighApart.of_infix {segment part : Text} (h : HighApart segment)
    (hpart : part <:+: segment) :
    HighApart part := by
  obtain ⟨more, less, rfl⟩ := hpart
  intro front c w back hs
  exact h (more ++ front) c w (back ++ less) (by rw [hs]; simp)

theorem fill_cons_of_not_wildcard {c : ℕ} (h : isWildcard c = false) (segment : Text) :
    fill (c :: segment) = c :: fill segment := by
  rw [Bool.eq_false_iff, ne_eq, isWildcard_iff, not_or] at h
  rw [fill_cons h.1, if_neg h.2]

/-- Then leaving the stars out joins no halves. -/
theorem characters_fill {segment : Text} (h : HighApart segment) :
    characters (fill segment) = fillCharacters (characters segment) := by
  induction segment using characterInduction with
  | nil => rw [fill, List.filter_nil, List.map_nil, characters_nil]; rfl
  | single c segment hcut ih =>
    have hrest := ih (h.of_infix (List.suffix_cons c segment).isInfix)
    rw [characters_cons hcut]
    by_cases hstar : c = 42
    · rw [hstar, fill_star, fillCharacters_star, hrest]
    · have hcut' : isHighSurrogate (if c = 63 then 120 else c) = false ∨
          ∀ d ∈ (fill segment).head?, isLowSurrogate d = false := by
        by_cases hhigh : isHighSurrogate c = false
        · left
          split
          · rfl
          · exact hhigh
        · -- what follows a high surrogate is no wildcard, so it is what follows in the text
          right
          have hnext := hcut.resolve_left hhigh
          cases segment with
          | nil => exact fun d hd => by simp [fill] at hd
          | cons d back =>
            have hd : isWildcard d = false := by
              by_contra hwild
              exact hhigh (h [] c d back rfl (Bool.eq_true_of_not_eq_false hwild))
            rw [fill_cons_of_not_wildcard hd]
            exact hnext
      rw [fill_cons hstar, fillCharacters_single hstar, characters_cons hcut', hrest]
  | pair c d back hc hd ih =>
    have hrest := ih (h.of_infix ((List.suffix_cons d back).trans (List.suffix_cons c _)).isInfix)
    rw [fill_cons_of_not_wildcard (not_wildcard_of_surrogate (.inl hc)),
      fill_cons_of_not_wildcard (not_wildcard_of_surrogate (.inr hd)), characters_pair hc hd,
      characters_pair hc hd, fillCharacters_pair, hrest]

theorem fitsCharacters_fill {segment : Text} (h : HighApart segment) :
    FitsCharacters segment (fill segment) := by
  rw [FitsCharacters, characters_fill h]
  exact fits_fillCharacters _

/-- A pair in a text is read as one character, whatever stands around it. -/
theorem characters_around_pair {c d : ℕ} (hc : isHighSurrogate c = true)
    (hd : isLowSurrogate d = true) (front back : Text) :
    characters (front ++ c :: d :: back) = characters front ++ [c, d] :: characters back := by
  rw [characters_append, characters_pair hc hd]
  refine .inr fun e he => ?_
  rw [← Option.some.inj he]
  by_contra hlow
  rw [not_high_of_low (Bool.eq_true_of_not_eq_false hlow)] at hc
  exact absurd hc Bool.false_ne_true

/-! ### Counting characters -/

/-- One unit more is at most one character more. -/
theorem countP_characters_cons_le {p : Text → Bool} (hp : ∀ c d, p [c, d] = true → p [d] = true)
    (c : ℕ) (text : Text) : (characters (c :: text)).countP p ≤
      (if p [c] then 1 else 0) + (characters text).countP p := by
  cases text with
  | nil => simp [characters, List.countP_cons]
  | cons d text =>
    by_cases hpair : isHighSurrogate c = true ∧ isLowSurrogate d = true
    · have hd : isHighSurrogate d = false := not_high_of_low hpair.2
      rw [characters_pair hpair.1 hpair.2, characters_cons (.inl hd), List.countP_cons,
        List.countP_cons]
      by_cases hjoined : p [c, d] = true
      · rw [if_pos hjoined, if_pos (hp c d hjoined)]
        omega
      · rw [if_neg hjoined]
        omega
    · rw [characters_cons, List.countP_cons]
      · omega
      · rw [not_and_or] at hpair
        refine hpair.imp Bool.eq_false_of_not_eq_true fun hlow e he => ?_
        rw [← Option.some.inj he]
        exact Bool.eq_false_of_not_eq_true hlow

/-- The shortest text has no more characters of a kind than the pattern. -/
theorem countP_characters_fill_le {p q : Text → Bool}
    (hp : ∀ c d, p [c, d] = true → p [d] = true) (hmark' : p (lit "x") = true → q (lit "?") = true)
    (hplain : ∀ c, c ≠ lit "*" → p c = true → q c = true) (segment : Text) :
    (characters (fill segment)).countP p ≤ (characters segment).countP q := by
  induction segment using characterInduction with
  | nil => simp [fill]
  | single c segment hcut ih =>
    rw [characters_cons hcut, List.countP_cons]
    by_cases hstar : c = 42
    · rw [hstar, fill_star]
      exact ih.trans (Nat.le_add_right _ _)
    · rw [fill_cons hstar]
      have hstep := countP_characters_cons_le hp (if c = 63 then 120 else c) (fill segment)
      have hhere : p [if c = 63 then 120 else c] = true → q [c] = true := by
        intro h
        by_cases hmark : c = 63
        · rw [if_pos hmark] at h
          rw [hmark]
          exact hmark' h
        · rw [if_neg hmark] at h
          exact hplain [c] (fun heq => hstar (List.cons.inj heq).1) h
      by_cases h : p [if c = 63 then 120 else c] = true
      · rw [if_pos h] at hstep
        rw [if_pos (hhere h)]
        omega
      · rw [if_neg h] at hstep
        omega
  | pair c d back hc hd ih =>
    have htwo : [c, d] ≠ lit "*" := (by simp : ∀ e : ℕ, [c, d] ≠ [e]) 42
    rw [fill_cons_of_not_wildcard (not_wildcard_of_surrogate (.inl hc)),
      fill_cons_of_not_wildcard (not_wildcard_of_surrogate (.inr hd)), characters_pair hc hd,
      characters_pair hc hd, List.countP_cons, List.countP_cons]
    by_cases h : p [c, d] = true
    · rw [if_pos h, if_pos (hplain _ htwo h)]
      omega
    · rw [if_neg h]
      omega

/-- A literal of the pattern stands in the text at least as often as in the pattern. -/
theorem count_le_of_fits {pattern text : List Text} (h : Fits (pattern.map characterPiece) text)
    {c : ℕ} (hc : isWildcard c = false) : pattern.count [c] ≤ text.count [c] := by
  induction pattern generalizing text with
  | nil => exact Nat.zero_le _
  | cons d pattern ih =>
    have hpiece : d = [c] → characterPiece d = .one fun other => other = [c] := fun heq => by
      rw [heq, characterPiece_of_not_wildcard hc]
    rw [List.map_cons] at h
    cases hd : characterPiece d with
    | run =>
      have hne : d ≠ [c] := fun heq => by
        rw [hpiece heq] at hd
        exact absurd hd (by simp)
      rw [hd, fits_run_iff] at h
      obtain ⟨taken, rest, rfl, h⟩ := h
      rw [List.count_cons_of_ne hne, List.count_append]
      exact (ih h).trans (Nat.le_add_left _ _)
    | one accepts =>
      rw [hd, fits_one_iff] at h
      obtain ⟨a, rest, rfl, ha, h⟩ := h
      by_cases heq : d = [c]
      · rw [hpiece heq] at hd
        injection hd with hd
        rw [← hd] at ha
        rw [heq, ha, List.count_cons_self, List.count_cons_self]
        exact Nat.succ_le_succ (ih h)
      · rw [List.count_cons_of_ne heq]
        exact (ih h).trans List.count_le_count_cons

/-! ### Texts that tell the readings apart -/

/-- Some text of a segment means something else in units than in characters. -/
def Differs (segment : Text) : Prop :=
  ∃ text, 47 ∉ text ∧ text ≠ [] ∧ ¬(FitsUnits segment text ↔ FitsCharacters segment text)

theorem FitsUnits.append {front back text text' : Text} (h : FitsUnits front text)
    (h' : FitsUnits back text') : FitsUnits (front ++ back) (text ++ text') := by
  rw [FitsUnits, List.map_append]
  exact Fits.append h h'

theorem count_characters_fill_le {half : ℕ}
    (hhalf : isHighSurrogate half = true ∨ isLowSurrogate half = true)
    (segment : Text) : (characters (fill segment)).count [half] ≤
      (characters segment).count [half] := by
  refine countP_characters_fill_le (fun c d h => ?_) (fun h => ?_) (fun c _ h => h) segment
  · simp at h
  · have h120 : 120 = half := (List.cons.inj (eq_of_beq h)).1
    rw [← h120] at hhalf
    exact absurd hhalf (by decide)

/-- A surrogate is no separator. -/
theorem ne_slash_of_surrogate {c : ℕ} (h : isHighSurrogate c = true ∨ isLowSurrogate c = true) :
    47 ≠ c := by
  rintro rfl
  exact absurd h (by decide)

/-- Two symbols of the pattern, of which one is a lone half and the other a wildcard, meet a
pair. -/
theorem differs_of_joined {front back : Text} {x y c d half : ℕ}
    (hslash : 47 ∉ front ++ x :: y :: back) (hc : isHighSurrogate c = true)
    (hd : isLowSurrogate d = true) (hfits : FitsUnits [x, y] [c, d])
    (hcharacters : characters (front ++ x :: y :: back) =
      characters front ++ [x] :: [y] :: characters back)
    (hhalf : half = x ∨ half = y) (hsurrogate : isHighSurrogate half = true ∨
      isLowSurrogate half = true) :
    Differs (front ++ x :: y :: back) := by
  have hslashes : 47 ∉ front ∧ 47 ∉ back := by
    simp only [List.mem_append, List.mem_cons, not_or] at hslash
    exact ⟨hslash.1, hslash.2.2.2⟩
  have hunits : FitsUnits (front ++ x :: y :: back) (fill front ++ c :: d :: fill back) :=
    (fits_fill front).append (hfits.append (fits_fill back))
  refine ⟨fill front ++ c :: d :: fill back, ?_, by simp, fun hiff => ?_⟩
  · simp only [List.mem_append, List.mem_cons, not_or]
    exact ⟨slash_not_mem_fill hslashes.1, ne_slash_of_surrogate (.inl hc),
      ne_slash_of_surrogate (.inr hd), slash_not_mem_fill hslashes.2⟩
  · -- the lone half stands once more in the pattern than in the text
    have hcount := count_le_of_fits (hiff.mp hunits) (not_wildcard_of_surrogate hsurrogate)
    have hfront := count_characters_fill_le hsurrogate front
    have hback := count_characters_fill_le hsurrogate back
    have hlone : 1 ≤ ([x] :: [y] :: characters back).count
        [half] - (characters back).count [half] := by
      rcases hhalf with rfl | rfl <;> simp only [List.count_cons] <;> simp <;> omega
    rw [hcharacters, characters_around_pair hc hd, List.count_append, List.count_append,
      List.count_cons_of_ne (by simp : [c, d] ≠ [half])] at hcount
    omega

theorem differs_of_high {front back : Text} {c w : ℕ} (hslash : 47 ∉ front ++ c :: w :: back)
    (hw : isWildcard w = true) (hc : isHighSurrogate c = true) :
      Differs (front ++ c :: w :: back) := by
  have hsurrogate := not_surrogate_of_wildcard hw
  refine differs_of_joined (c := c) (d := 56832) hslash hc (by decide) ?_ ?_ (.inl rfl) (.inl hc)
  · rw [FitsUnits, List.map_cons, unitPiece_of_not_wildcard (not_wildcard_of_surrogate (.inl hc))]
    refine .one rfl ?_
    rcases isWildcard_iff.mp hw with rfl | rfl
    · exact .run [56832] .nil
    · exact .one trivial .nil
  · have hlow : isLowSurrogate c = false := by
      by_contra hlow
      rw [not_high_of_low (Bool.eq_true_of_not_eq_false hlow)] at hc
      exact absurd hc Bool.false_ne_true
    rw [characters_append (.inr fun d hd => by rw [← Option.some.inj hd]; exact hlow),
      characters_cons (.inr fun d hd => by rw [← Option.some.inj hd]; exact hsurrogate.2),
      characters_cons (.inl hsurrogate.1)]

theorem differs_of_low {front back : Text} {w d : ℕ} (hslash : 47 ∉ front ++ w :: d :: back)
    (hw : isWildcard w = true) (hd : isLowSurrogate d = true) :
      Differs (front ++ w :: d :: back) := by
  have hsurrogate := not_surrogate_of_wildcard hw
  refine differs_of_joined (c := 55357) (d := d) hslash (by decide) hd ?_ ?_ (.inr rfl) (.inr hd)
  · have hlast : FitsUnits [d] [d] := by
      rw [FitsUnits, List.map_cons, unitPiece_of_not_wildcard (not_wildcard_of_surrogate (.inr hd))]
      exact .one rfl .nil
    rcases isWildcard_iff.mp hw with rfl | rfl
    · exact Fits.run [55357] hlast
    · exact Fits.one trivial hlast
  · rw [characters_append_cons hsurrogate.1 hsurrogate.2,
      characters_cons (.inl (not_high_of_low hd))]

theorem length_characters_fill_le (segment : Text) :
    (characters (fill segment)).length ≤ least ((characters segment).map characterPiece) := by
  have h := countP_characters_fill_le (p := fun _ => true) (q := fun c => c ≠ lit "*")
    (fun _ _ _ => rfl) (fun _ => by decide) (fun c hc _ => by simpa using hc) segment
  rwa [List.countP_true, ← least_characters] at h

/-- Two `?` in one stretch are content with one character of two units. -/
theorem differs_of_two {segment front wild back : Text} (h : Stretch segment front wild back)
    (hslash : 47 ∉ segment) (hcount : 2 ≤ wild.count 63) : Differs segment := by
  have hslashes : 47 ∉ front ∧ 47 ∉ back := by
    rw [h.split, List.mem_append, List.mem_append, not_or, not_or] at hslash
    exact ⟨hslash.1.1, hslash.2⟩
  let more := List.replicate (wild.count 63 - 2) 120
  have hunits : FitsUnits segment (fill front ++ (55357 :: 56832 :: more ++ fill back)) := by
    rw [h.split, List.append_assoc]
    refine (fits_fill front).append (FitsUnits.append ?_ (fits_fill back))
    refine fits_of_open_of_length (open_units h.wildcards) ?_
    rw [(least_wild h.wildcards).1, List.length_cons, List.length_cons, List.length_replicate]
    omega
  refine ⟨fill front ++ (55357 :: 56832 :: more ++ fill back), ?_, by simp, fun hiff => ?_⟩
  · simp only [List.cons_append, List.mem_append, List.mem_cons, not_or]
    exact ⟨slash_not_mem_fill hslashes.1, by decide, by decide,
      fun hmem => absurd (List.eq_of_mem_replicate hmem) (by decide),
      slash_not_mem_fill hslashes.2⟩
  · have hlength := (hiff.mp hunits).least_le
    have hmore : characters (more ++ fill back) =
        (List.replicate (wild.count 63 - 2) [120]) ++ characters (fill back) := by
      have hplain : ∀ c ∈ more, isHighSurrogate c = false := fun c hc => by
        rw [List.eq_of_mem_replicate hc]
        decide
      rw [characters_append (.inl fun c hc => hplain c (List.mem_of_getLast? hc)),
        characters_of_no_high hplain, List.map_replicate]
    rw [characters_stretch h, List.map_append, List.map_append, least_append, least_append,
      (least_wild h.wildcards).2, List.cons_append, List.cons_append,
      characters_around_pair (by decide) (by decide), hmore] at hlength
    simp only [List.length_append, List.length_cons, List.length_replicate] at hlength
    have := length_characters_fill_le front
    have := length_characters_fill_le back
    omega

theorem exists_high_not_mem (o : Option ℕ) : ∃ c, isHighSurrogate c = true ∧ c ∉ o := by
  by_cases h : 55357 ∈ o
  · refine ⟨55356, by decide, fun h' => ?_⟩
    rw [Option.mem_def.mp h] at h'
    exact absurd (Option.some.inj h') (by decide)
  · exact ⟨55357, by decide, h⟩

theorem exists_low_not_mem (o : Option ℕ) : ∃ d, isLowSurrogate d = true ∧ d ∉ o := by
  by_cases h : 56832 ∈ o
  · refine ⟨56833, by decide, fun h' => ?_⟩
    rw [Option.mem_def.mp h] at h'
    exact absurd (Option.some.inj h') (by decide)
  · exact ⟨56832, by decide, h⟩

/-- A `?` by itself takes one unit of the text. -/
theorem not_fits_alone {front back : Text} {c d : ℕ}
    (hbefore : ∀ e ∈ front.getLast?, isWildcard e = false)
    (hafter : ∀ e ∈ back.head?, isWildcard e = false) (hc : c ∉ front.getLast?)
    (hd : d ∉ back.head?) :
    ¬FitsUnits (front ++ 63 :: back) (fill front ++ c :: d :: fill back) := by
  intro h
  rw [FitsUnits, List.map_append, fits_append] at h
  obtain ⟨text, rest, hsplit, hfront, hrest⟩ := h
  obtain ⟨e, text', rfl, -, hback⟩ := fits_one_iff.mp hrest
  have hlength := congrArg List.length hsplit
  simp only [List.length_append, List.length_cons, length_fill] at hlength
  have hle := hfront.least_le
  have hle' := hback.least_le
  -- one unit of the pair is left over, for the front or for the back
  rcases Nat.lt_or_ge text.length (least (front.map unitPiece) + 1) with hshort | hlong
  · obtain ⟨-, htail⟩ := List.append_inj hsplit (by rw [length_fill]; omega)
    rw [← (List.cons.inj htail).2] at hback
    exact hd (head?_of_fits hback hafter ▸ rfl)
  · rw [List.append_cons] at hsplit
    obtain ⟨rfl, -⟩ := List.append_inj hsplit
      (by rw [List.length_append, length_fill, List.length_singleton]; omega)
    exact hc (getLast?_of_fits hfront hbefore ▸ by simp)

/-- A `?` without a `*` in its stretch does not take a character of two units. -/
theorem differs_of_alone {segment front wild back : Text} (h : Stretch segment front wild back)
    (hslash : 47 ∉ segment) (hapart : HighApart segment) (hcount : wild.count 63 = 1)
    (hstar : 42 ∉ wild) : Differs segment := by
  have hall : ∀ c ∈ wild, 63 = c := by
    intro c hc
    rcases isWildcard_iff.mp (h.wildcards c hc) with rfl | rfl
    · exact absurd hc hstar
    · rfl
  obtain rfl : wild = [63] := by
    rw [List.eq_replicate_of_mem fun c hc => (hall c hc).symm] at hcount ⊢
    rw [List.count_replicate_self] at hcount
    rw [hcount]
    rfl
  have hsplit : segment = front ++ 63 :: back := by rw [h.split]; simp
  have hslashes : 47 ∉ front ∧ 47 ∉ back := by
    rw [hsplit, List.mem_append, List.mem_cons, not_or, not_or] at hslash
    exact ⟨hslash.1, hslash.2.2⟩
  obtain ⟨c, hc, hlast⟩ := exists_high_not_mem front.getLast?
  obtain ⟨d, hd, hhead⟩ := exists_low_not_mem back.head?
  refine ⟨fill front ++ c :: d :: fill back, ?_, by simp, fun hiff => ?_⟩
  · simp only [List.mem_append, List.mem_cons, not_or]
    exact ⟨slash_not_mem_fill hslashes.1, ne_slash_of_surrogate (.inl hc),
      ne_slash_of_surrogate (.inr hd), slash_not_mem_fill hslashes.2⟩
  · rw [hsplit] at hiff hapart
    have hfront := fitsCharacters_fill (hapart.of_infix (List.prefix_append front _).isInfix)
    have hback := fitsCharacters_fill (hapart.of_infix
      ((List.suffix_cons 63 back).trans (List.suffix_append front _)).isInfix)
    refine not_fits_alone h.before h.after hlast hhead (hiff.mpr ?_)
    rw [FitsCharacters, characters_append_cons (by decide) (by decide),
      characters_around_pair hc hd, List.map_append]
    exact Fits.append hfront (.one trivial hback)

/-- **The careful patterns are those without a text that tells the readings apart.** -/
theorem differs_of_not_careful {segment : Text} (hslash : 47 ∉ segment) (h : ¬Careful segment) :
    Differs segment := by
  by_contra hsame
  refine h ⟨fun front wild back hs => ?_, fun front c w back hs hw => ?_,
    fun front w d back hs hw => ?_⟩
  · have hapart : HighApart segment := by
      intro front c w back hs hw
      by_contra hc
      rw [hs] at hslash hsame
      exact hsame (differs_of_high hslash hw (Bool.eq_true_of_not_eq_false hc))
    by_contra hsingle
    rw [not_or, not_and] at hsingle
    rcases Nat.lt_or_ge (wild.count 63) 2 with hfew | hmany
    · have hone : wild.count 63 = 1 := by omega
      exact hsame (differs_of_alone hs hslash hapart hone (hsingle.2 hone))
    · exact hsame (differs_of_two hs hslash hmany)
  · by_contra hc
    rw [hs] at hslash hsame
    exact hsame (differs_of_high hslash hw (Bool.eq_true_of_not_eq_false hc))
  · by_contra hd
    rw [hs] at hslash hsame
    exact hsame (differs_of_low hslash hw (Bool.eq_true_of_not_eq_false hd))

end Newsdeck.Loop

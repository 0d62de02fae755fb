import Newsdeck.Loop.GlobSource

/-!
# Units and characters

The documentation of the matcher speaks of characters: `?` stands for exactly one of them.  The
engine is handed an expression without the `u` flag and counts units, of which some characters have
two.

* `Documented` — the documented meaning, over the characters of pattern and path;
* `Careful` — a condition on a segment pattern, and `Careful.fits_iff`: such a pattern does not tell
  units and characters apart.
-/

namespace Newsdeck.Loop

open Ecma Ecma.Json Wildcards

/-! ### The documented meaning -/

/-- What a character of a segment pattern stands for. -/
def characterPiece (character : Text) : Piece Text :=
  if character = lit "*" then .run
  else if character = lit "?" then .one fun _ => True
  else .one fun other => other = character

/-- What a segment of a pattern stands for. -/
def segmentMeaning (segment : List Text) : Piece (List Text) :=
  if segment = [lit "*", lit "*"] then .run else .one (Fits (segment.map characterPiece))

/-- A leading `./` changes nothing. -/
def withoutDot (path : Text) : Text := if (lit "./").isPrefixOf path then path.drop 2 else path

/-- The non-empty segments of a path, in characters. -/
def characterSegments (path : Text) : List (List Text) :=
  ((characters (withoutDot path)).splitOn (lit "/")).filter (· ≠ [])

/-- **The documented meaning** of a pattern. -/
def Documented (pattern path : Text) : Prop :=
  Fits ((characterSegments pattern).map segmentMeaning) (characterSegments path)

/-- The text fits the segment pattern, both read by characters. -/
def FitsCharacters (segment text : Text) : Prop :=
  Fits ((characters segment).map characterPiece) (characters text)

theorem characterSegments_eq (path : Text) : characterSegments path = (segments path).map characters := by
  have hsplit : (characters (withoutDot path)).splitOn (lit "/") =
      ((withoutDot path).splitOn 47).map characters :=
    splitOn_characters (by decide) (by decide) (withoutDot path)
  rw [characterSegments, hsplit, List.filter_map]
  refine congrArg (List.map characters) (List.filter_congr fun s _ => ?_)
  rw [Function.comp_apply, decide_eq_decide, ne_eq, characters_eq_nil_iff, gt_iff_lt,
    List.length_pos_iff]

theorem documented_iff (pattern path : Text) : Documented pattern path ↔
    Fits ((segments pattern).map (segmentPieceBy FitsCharacters)) (segments path) := by
  rw [Documented, characterSegments_eq, characterSegments_eq, fits_map_iff, List.map_map, List.map_map]
  refine Eq.to_iff (congrArg (fun pieces => Fits pieces (segments path)) ?_)
  refine List.map_congr_left fun s _ => ?_
  have hany : characters s = [lit "*", lit "*"] ↔ s = lit "**" := by
    constructor
    · intro h
      rw [← flatten_characters s, h]
      rfl
    · rintro rfl
      decide
  rw [Function.comp_apply, Function.comp_apply, segmentMeaning, segmentPieceBy]
  by_cases h : s = lit "**"
  · rw [if_pos h, if_pos (hany.mpr h)]
    rfl
  · rw [if_neg h, if_neg (mt hany.mp h)]
    rfl

/-! ### Stretches of wildcards -/

def isWildcard (c : ℕ) : Bool := c = 42 || c = 63

/-- A longest stretch of wildcards in a segment pattern, with what stands around it. -/
structure Stretch (segment front wild back : Text) : Prop where
  split : segment = front ++ wild ++ back
  nonempty : wild ≠ []
  wildcards : ∀ c ∈ wild, isWildcard c = true
  before : ∀ c ∈ front.getLast?, isWildcard c = false
  after : ∀ c ∈ back.head?, isWildcard c = false

/-- A segment pattern that means the same in units and in characters: a stretch of wildcards has at
most one `?`, and then a `*` as well; no high surrogate stands right before a wildcard, and no low
one right behind. -/
structure Careful (segment : Text) : Prop where
  single : ∀ front wild back, Stretch segment front wild back →
    wild.count 63 = 0 ∨ (wild.count 63 = 1 ∧ 42 ∈ wild)
  notHigh : ∀ front c w back, segment = front ++ c :: w :: back → isWildcard w = true →
    isHighSurrogate c = false
  notLow : ∀ front w d back, segment = front ++ w :: d :: back → isWildcard w = true →
    isLowSurrogate d = false

theorem isWildcard_iff {c : ℕ} : isWildcard c = true ↔ c = 42 ∨ c = 63 := by
  unfold isWildcard
  rw [Bool.or_eq_true, decide_eq_true_eq, decide_eq_true_eq]

theorem not_wildcard_of_surrogate {c : ℕ}
    (h : isHighSurrogate c = true ∨ isLowSurrogate c = true) : isWildcard c = false := by
  simp only [isHighSurrogate, isLowSurrogate, Bool.and_eq_true, decide_eq_true_eq] at h
  rw [Bool.eq_false_iff, ne_eq, isWildcard_iff]
  omega

theorem not_surrogate_of_wildcard {c : ℕ} (h : isWildcard c = true) :
    isHighSurrogate c = false ∧ isLowSurrogate c = false := by
  rcases isWildcard_iff.mp h with rfl | rfl <;> decide

theorem Stretch.prepend {segment front wild back : Text} (h : Stretch segment front wild back)
    {more : Text} (hcut : (∀ c ∈ more.getLast?, isWildcard c = false) ∨
      ∀ c ∈ segment.head?, isWildcard c = false) :
    Stretch (more ++ segment) (more ++ front) wild back where
  split := by rw [h.split]; simp
  nonempty := h.nonempty
  wildcards := h.wildcards
  before := by
    intro c hc
    cases front with
    | nil =>
      obtain ⟨w, wild, rfl⟩ := List.exists_cons_of_ne_nil h.nonempty
      rcases hcut with hlast | hhead
      · exact hlast c (by rwa [List.append_nil] at hc)
      · have hwild := h.wildcards w List.mem_cons_self
        rw [hhead w (by rw [h.split]; rfl)] at hwild
        exact absurd hwild Bool.false_ne_true
    | cons d front =>
      refine h.before c ?_
      rwa [List.getLast?_append_of_ne_nil _ (List.cons_ne_nil _ _)] at hc
  after := h.after

/-- What is left of a careful pattern behind a cut that parts no stretch. -/
theorem Careful.of_append {segment : Text} (more : Text) (h : Careful (more ++ segment))
    (hcut : (∀ c ∈ more.getLast?, isWildcard c = false) ∨
      ∀ c ∈ segment.head?, isWildcard c = false) : Careful segment where
  single := fun front wild back hs => h.single _ wild back (hs.prepend hcut)
  notHigh := fun front c w back hs => h.notHigh (more ++ front) c w back (by rw [hs, List.append_assoc])
  notLow := fun front w d back hs => h.notLow (more ++ front) w d back (by rw [hs, List.append_assoc])

theorem Careful.notLow_of_stretch {segment front wild back : Text} (h : Careful segment)
    (hs : Stretch segment front wild back) : ∀ d ∈ back.head?, isLowSurrogate d = false := by
  intro d hd
  obtain ⟨back, rfl⟩ := List.head?_eq_some_iff.mp (Option.mem_def.mp hd)
  obtain ⟨wild, w, rfl⟩ := (List.eq_nil_or_concat' wild).resolve_left hs.nonempty
  refine h.notLow (front ++ wild) w d back ?_ (hs.wildcards w (by simp))
  rw [hs.split]
  simp

/-- What a segment pattern starts with: a pair, a character of one unit, or a stretch. -/
theorem segment_cases (c : ℕ) (segment : Text) :
    (∃ d back, c :: segment = c :: d :: back ∧ isHighSurrogate c = true ∧ isLowSurrogate d = true) ∨
      (isWildcard c = false ∧
        (isHighSurrogate c = false ∨ ∀ d ∈ segment.head?, isLowSurrogate d = false)) ∨
      ∃ wild back, Stretch (c :: segment) [] wild back := by
  by_cases hwild : isWildcard c = true
  · right
    right
    refine ⟨(c :: segment).takeWhile isWildcard, (c :: segment).dropWhile isWildcard, ?_⟩
    refine
      { split := (List.takeWhile_append_dropWhile (p := isWildcard) (l := c :: segment)).symm
        nonempty := by rw [List.takeWhile_cons_of_pos hwild]; exact List.cons_ne_nil _ _
        wildcards := fun d hd => List.all_eq_true.mp List.all_takeWhile d hd
        before := fun d hd => by simp at hd
        after := fun d hd => ?_ }
    have hstop := List.head?_dropWhile_not isWildcard (c :: segment)
    rw [Option.mem_def.mp hd] at hstop
    simpa using hstop
  · by_cases hpair : isHighSurrogate c = false ∨ ∀ d ∈ segment.head?, isLowSurrogate d = false
    · exact .inr (.inl ⟨Bool.eq_false_of_not_eq_true hwild, hpair⟩)
    · left
      push Not at hpair
      obtain ⟨hhigh, d, hd, hlow⟩ := hpair
      obtain ⟨back, hback⟩ := List.head?_eq_some_iff.mp (Option.mem_def.mp hd)
      exact ⟨d, back, by rw [hback], Bool.eq_true_of_not_eq_false hhigh,
        Bool.eq_true_of_not_eq_false hlow⟩

/-! ### Pieces of both readings -/

theorem unitPiece_of_not_wildcard {c : ℕ} (h : isWildcard c = false) :
    unitPiece c = .one fun d => d = c := by
  rw [Bool.eq_false_iff, ne_eq, isWildcard_iff, not_or] at h
  rw [unitPiece, if_neg h.1, if_neg h.2]

theorem characterPiece_singleton (c : ℕ) : characterPiece [c] =
    if c = 42 then .run else if c = 63 then .one fun _ => True else .one fun other => other = [c] := by
  have hstar : [c] = lit "*" ↔ c = 42 := ⟨fun h => (List.cons.inj h).1, fun h => by rw [h]; rfl⟩
  have hmark : [c] = lit "?" ↔ c = 63 := ⟨fun h => (List.cons.inj h).1, fun h => by rw [h]; rfl⟩
  simp only [characterPiece, hstar, hmark]

theorem characterPiece_of_not_wildcard {c : ℕ} (h : isWildcard c = false) :
    characterPiece [c] = .one fun other => other = [c] := by
  rw [Bool.eq_false_iff, ne_eq, isWildcard_iff, not_or] at h
  rw [characterPiece_singleton, if_neg h.1, if_neg h.2]

theorem characterPiece_pair (c d : ℕ) : characterPiece [c, d] = .one fun other => other = [c, d] := by
  have htwo : ∀ e : ℕ, [c, d] ≠ [e] := by simp
  have hstar : [c, d] ≠ lit "*" := htwo 42
  have hmark : [c, d] ≠ lit "?" := htwo 63
  rw [characterPiece, if_neg hstar, if_neg hmark]

theorem least_units (segment : Text) :
    least (segment.map unitPiece) = segment.countP (fun c => c ≠ 42) := by
  induction segment with
  | nil => rfl
  | cons c segment ih =>
    rw [List.map_cons, unitPiece]
    by_cases hstar : c = 42
    · rw [if_pos hstar, least, ih, List.countP_cons_of_neg (by simpa using hstar)]
    · rw [if_neg hstar, List.countP_cons_of_pos (by simpa using hstar), ← ih]
      split <;> rfl

theorem least_characters (pattern : List Text) :
    least (pattern.map characterPiece) = pattern.countP (fun c => c ≠ lit "*") := by
  induction pattern with
  | nil => rfl
  | cons c pattern ih =>
    rw [List.map_cons, characterPiece]
    by_cases hstar : c = lit "*"
    · rw [if_pos hstar, least, ih, List.countP_cons_of_neg (by simpa using hstar)]
    · rw [if_neg hstar, List.countP_cons_of_pos (by simpa using hstar), ← ih]
      split <;> rfl

section Wild

variable {wild : Text} (hwild : ∀ c ∈ wild, isWildcard c = true)

include hwild

theorem characters_wild : characters wild = wild.map fun c => [c] :=
  characters_of_no_high fun c hc => (not_surrogate_of_wildcard (hwild c hc)).1

theorem open_units : Open (wild.map unitPiece) := by
  intro piece hpiece
  obtain ⟨c, hc, rfl⟩ := List.mem_map.mp hpiece
  rcases isWildcard_iff.mp (hwild c hc) with rfl | rfl
  · exact .inl rfl
  · exact .inr rfl

theorem open_characters : Open ((characters wild).map characterPiece) := by
  intro piece hpiece
  rw [characters_wild hwild, List.map_map] at hpiece
  obtain ⟨c, hc, rfl⟩ := List.mem_map.mp hpiece
  rcases isWildcard_iff.mp (hwild c hc) with rfl | rfl
  · exact .inl rfl
  · exact .inr rfl

theorem least_wild : least (wild.map unitPiece) = wild.count 63 ∧
    least ((characters wild).map characterPiece) = wild.count 63 := by
  have hcount : wild.countP (fun c => c ≠ 42) = wild.count 63 := by
    refine List.countP_congr fun c hc => ?_
    rcases isWildcard_iff.mp (hwild c hc) with rfl | rfl <;> decide
  refine ⟨(least_units wild).trans hcount, ?_⟩
  rw [least_characters, characters_wild hwild, List.countP_map, ← hcount]
  refine List.countP_congr fun c _ => ?_
  simp [lit]

end Wild

/-! ### Careful patterns -/

/-- A segment pattern that starts with no wildcard starts every text that fits it. -/
theorem head?_of_fits {segment text : Text} (h : FitsUnits segment text)
    (hhead : ∀ c ∈ segment.head?, isWildcard c = false) : text.head? = segment.head? := by
  cases segment with
  | nil => rw [fits_nil_iff.mp h]
  | cons c segment =>
    rw [FitsUnits, List.map_cons, unitPiece_of_not_wildcard (hhead c rfl), fits_one_iff] at h
    obtain ⟨_, rest, rfl, rfl, -⟩ := h
    rfl

/-- And one that ends in no wildcard ends it. -/
theorem getLast?_of_fits {segment text : Text} (h : FitsUnits segment text)
    (hlast : ∀ c ∈ segment.getLast?, isWildcard c = false) : text.getLast? = segment.getLast? := by
  rcases List.eq_nil_or_concat' segment with rfl | ⟨segment, c, rfl⟩
  · rw [fits_nil_iff.mp h]
  · rw [FitsUnits, List.map_append, fits_append] at h
    obtain ⟨front, back, rfl, -, hback⟩ := h
    rw [List.map_singleton, unitPiece_of_not_wildcard (hlast c (by simp)), fits_one_iff] at hback
    obtain ⟨_, rest, rfl, rfl, hrest⟩ := hback
    rw [fits_nil_iff.mp hrest, List.getLast?_concat, List.getLast?_concat]

theorem fits_pair_iff {c d : ℕ} {back : Text} (hc : isHighSurrogate c = true)
    (hd : isLowSurrogate d = true)
    (hback : ∀ text, FitsUnits back text ↔ FitsCharacters back text) (text : Text) :
    FitsUnits (c :: d :: back) text ↔ FitsCharacters (c :: d :: back) text := by
  rw [FitsUnits, FitsCharacters, characters_pair hc hd, List.map_cons, List.map_cons, List.map_cons,
    unitPiece_of_not_wildcard (not_wildcard_of_surrogate (.inl hc)),
    unitPiece_of_not_wildcard (not_wildcard_of_surrogate (.inr hd)), characterPiece_pair]
  constructor
  · intro h
    obtain ⟨_, after, rfl, rfl, hafter⟩ := fits_one_iff.mp h
    obtain ⟨_, rest, rfl, rfl, hrest⟩ := fits_one_iff.mp hafter
    rw [characters_pair hc hd]
    exact .one rfl ((hback rest).mp hrest)
  · intro h
    obtain ⟨_, rest, htext, rfl, hrest⟩ := fits_one_iff.mp h
    obtain ⟨rfl, hspelled⟩ := characters_eq_cons htext
    have hfits : FitsCharacters back rest.flatten := by rwa [FitsCharacters, hspelled]
    exact .one rfl (.one rfl ((hback _).mpr hfits))

theorem fits_plain_iff {c : ℕ} {segment : Text} (hplain : isWildcard c = false)
    (hcut : isHighSurrogate c = false ∨ ∀ d ∈ segment.head?, isLowSurrogate d = false)
    (hafter : ∀ rest, FitsUnits segment rest →
      isHighSurrogate c = false ∨ ∀ d ∈ rest.head?, isLowSurrogate d = false)
    (hsegment : ∀ text, FitsUnits segment text ↔ FitsCharacters segment text) (text : Text) :
    FitsUnits (c :: segment) text ↔ FitsCharacters (c :: segment) text := by
  rw [FitsUnits, FitsCharacters, characters_cons hcut, List.map_cons, List.map_cons,
    unitPiece_of_not_wildcard hplain, characterPiece_of_not_wildcard hplain]
  constructor
  · intro h
    obtain ⟨_, rest, rfl, rfl, hrest⟩ := fits_one_iff.mp h
    rw [characters_cons (hafter rest hrest)]
    exact .one rfl ((hsegment rest).mp hrest)
  · intro h
    obtain ⟨_, rest, htext, rfl, hrest⟩ := fits_one_iff.mp h
    obtain ⟨rfl, hspelled⟩ := characters_eq_cons htext
    have hfits : FitsCharacters segment rest.flatten := by rwa [FitsCharacters, hspelled]
    exact .one rfl ((hsegment _).mpr hfits)

theorem characters_stretch {segment front wild back : Text} (h : Stretch segment front wild back) :
    characters segment = characters front ++ characters wild ++ characters back := by
  obtain ⟨w, wild', rfl⟩ := List.exists_cons_of_ne_nil h.nonempty
  have hlast : ∀ c ∈ (w :: wild').getLast?, isHighSurrogate c = false := fun c hc =>
    (not_surrogate_of_wildcard (h.wildcards c (List.mem_of_getLast? hc))).1
  have hfirst : ∀ c ∈ (w :: wild').head?, isLowSurrogate c = false := fun c hc =>
    (not_surrogate_of_wildcard (h.wildcards c (List.mem_of_mem_head? hc))).2
  rw [h.split, characters_append (.inl ?_), characters_append (.inr hfirst)]
  rwa [List.getLast?_append_of_ne_nil _ (List.cons_ne_nil _ _)]

theorem fits_stretch_iff {segment wild back : Text} (h : Stretch segment [] wild back)
    (hcount : wild.count 63 ≤ 1) (hstar : 42 ∈ wild)
    (hlow : ∀ c ∈ back.head?, isLowSurrogate c = false)
    (hback : ∀ text, FitsUnits back text ↔ FitsCharacters back text) (text : Text) :
    FitsUnits segment text ↔ FitsCharacters segment text := by
  have hleast := least_wild h.wildcards
  have hrun : Piece.run ∈ wild.map unitPiece := List.mem_map.mpr ⟨42, hstar, rfl⟩
  have hrun' : Piece.run ∈ (characters wild).map characterPiece := by
    rw [characters_wild h.wildcards, List.map_map]
    exact List.mem_map.mpr ⟨42, hstar, rfl⟩
  rw [FitsUnits, FitsCharacters, characters_stretch h, h.split, characters_nil, List.nil_append,
    List.nil_append, List.map_append, List.map_append, fits_append, fits_append]
  constructor
  · rintro ⟨taken, rest, rfl, htaken, hrest⟩
    have hhead := head?_of_fits hrest h.after
    refine ⟨characters taken, characters rest, ?_, ?_, (hback rest).mp hrest⟩
    · exact characters_append (.inr fun d hd => hlow d (by rwa [← hhead]))
    · refine fits_of_open (open_characters h.wildcards) hrun' ?_
      have hlength := htaken.least_le
      rw [hleast.1] at hlength
      rw [hleast.2]
      -- one symbol is enough, and a text that is not empty has one in either reading
      rcases Nat.eq_zero_or_pos (wild.count 63) with hzero | hpos
      · omega
      · have hne : characters taken ≠ [] := by
          rw [ne_eq, characters_eq_nil_iff, ← List.length_eq_zero_iff]
          omega
        have := List.length_pos_iff.mpr hne
        omega
  · rintro ⟨taken, rest, htext, htaken, hrest⟩
    obtain ⟨rfl, hcharacters⟩ := characters_eq_append htext
    refine ⟨taken.flatten, rest.flatten, rfl, ?_, (hback _).mpr ?_⟩
    · refine fits_of_open (open_units h.wildcards) hrun ?_
      have hlength := htaken.least_le
      rw [hleast.2] at hlength
      rw [hleast.1]
      rcases Nat.eq_zero_or_pos (wild.count 63) with hzero | hpos
      · omega
      · obtain ⟨character, taken, rfl⟩ := List.exists_cons_of_length_pos (by omega : 0 < taken.length)
        have hmem : character ∈ characters (List.flatten (character :: taken) ++ rest.flatten) := by
          rw [htext]
          exact List.mem_append_left _ List.mem_cons_self
        have hpos' : 0 < character.length := by
          rcases mem_characters hmem with ⟨c, rfl⟩ | ⟨c, d, rfl, -⟩ <;> simp
        rw [List.flatten_cons, List.length_append]
        omega
    · rw [FitsCharacters, hcharacters]
      exact hrest

/-- **Careful patterns mean the same in units and in characters.** -/
theorem Careful.fits_iff {segment : Text} (h : Careful segment) (text : Text) :
    FitsUnits segment text ↔ FitsCharacters segment text := by
  induction hlength : segment.length using Nat.strong_induction_on generalizing segment text with
  | _ n ih =>
    cases segment with
    | nil =>
      rw [FitsUnits, FitsCharacters, characters_nil, List.map_nil, List.map_nil, fits_nil_iff,
        fits_nil_iff, characters_eq_nil_iff]
    | cons c segment =>
      rcases segment_cases c segment with ⟨d, back, heq, hc, hd⟩ |
        ⟨hplain, hcut⟩ | ⟨wild, back, hstretch⟩
      · obtain rfl := (List.cons.inj heq).2
        have hback : Careful back := Careful.of_append [c, d] h <| .inl fun e he => by
          obtain rfl : d = e := by simpa using he
          exact not_wildcard_of_surrogate (.inr hd)
        refine fits_pair_iff hc hd (fun rest => ih back.length ?_ hback rest rfl) text
        rw [← hlength, List.length_cons, List.length_cons]
        omega
      · have hsegment : Careful segment := Careful.of_append [c] h <| .inl fun e he => by
          obtain rfl : c = e := by simpa using he
          exact hplain
        have hiff := fun rest => ih segment.length (by rw [← hlength, List.length_cons]; omega)
          hsegment rest rfl
        refine fits_plain_iff hplain hcut (fun rest hrest => ?_) hiff text
        -- a high surrogate stands before no stretch, so what follows it is what follows in the text
        by_cases hhead : ∀ d ∈ segment.head?, isWildcard d = false
        · rwa [head?_of_fits hrest hhead]
        · left
          push Not at hhead
          obtain ⟨d, hd, hwild⟩ := hhead
          obtain ⟨back, rfl⟩ := List.head?_eq_some_iff.mp (Option.mem_def.mp hd)
          exact h.notHigh [] c d back rfl (Bool.eq_true_of_not_eq_false hwild)
      · have hsingle := h.single _ _ _ hstretch
        have hstar : 42 ∈ wild := by
          rcases hsingle with hzero | ⟨-, hstar⟩
          · obtain ⟨w, wild', rfl⟩ := List.exists_cons_of_ne_nil hstretch.nonempty
            rcases isWildcard_iff.mp (hstretch.wildcards w List.mem_cons_self) with rfl | rfl
            · exact List.mem_cons_self
            · simp at hzero
          · exact hstar
        have hsplit : c :: segment = wild ++ back := hstretch.split
        have hback : Careful back := Careful.of_append wild (by rwa [← hsplit])
          (.inr hstretch.after)
        refine fits_stretch_iff hstretch (by omega) hstar (h.notLow_of_stretch hstretch)
          (fun rest => ih back.length ?_ hback rest rfl) text
        have hpos := List.length_pos_iff.mpr hstretch.nonempty
        rw [← hlength, hsplit, List.length_append]
        omega

end Newsdeck.Loop

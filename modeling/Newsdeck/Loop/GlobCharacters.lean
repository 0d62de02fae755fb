import Newsdeck.Loop.GlobDifferences

/-!
# Where the matcher keeps to its documentation

* `agrees_on_paths_iff` — the patterns that mean on every path what is documented are those whose
  segments are careful;
* `agrees_under_patterns_iff` — the paths on which every pattern means what is documented are those
  whose characters have one unit each.
-/

namespace Newsdeck.Loop

open Ecma Ecma.Json Wildcards

/-! ### Whole paths -/

/-- The matcher keeps to the documented meaning of the pattern on the path. -/
def Agrees (pattern path : Text) : Prop := matchesGlob pattern path = true ↔ Documented pattern path

/-- A path, or a pattern, with the given segments. -/
def rooted (pieces : List Text) : Text := pieces.flatMap fun s => 47 :: s

theorem splitOn_rooted (pieces : List Text) : ∀ first : Text, 47 ∉ first → (∀ s ∈ pieces, 47 ∉ s) →
    (first ++ rooted pieces).splitOn 47 = first :: pieces := by
  induction pieces with
  | nil =>
    intro first hfirst _
    rw [rooted, List.flatMap_nil, List.append_nil, List.splitOn_eq_singleton hfirst]
  | cons s pieces ih =>
    intro first hfirst hpieces
    rw [rooted, List.flatMap_cons, List.cons_append,
      List.splitOn_append_cons_self_of_not_mem hfirst]
    rw [← rooted, ih s (hpieces s List.mem_cons_self)
      fun s' hs' => hpieces s' (List.mem_cons_of_mem _ hs')]

theorem segments_rooted {pieces : List Text} (h : ∀ s ∈ pieces, s ≠ [] ∧ 47 ∉ s) :
    segments (rooted pieces) = pieces := by
  have hdot : (lit "./").isPrefixOf (rooted pieces) = false := by
    cases pieces with
    | nil => rfl
    | cons s pieces => rfl
  have hsplit := splitOn_rooted pieces [] List.not_mem_nil fun s hs => (h s hs).2
  rw [List.nil_append] at hsplit
  rw [segments, hdot, if_neg Bool.false_ne_true, hsplit, List.filter_cons_of_neg (by simp)]
  exact List.filter_eq_self.mpr fun s hs => by simpa [List.length_pos_iff] using (h s hs).1

theorem segments_spec {path s : Text} (h : s ∈ segments path) : s ≠ [] ∧ 47 ∉ s :=
  ⟨fun hs => by simpa [hs] using (List.mem_filter.mp h).2, not_mem_of_mem_segments h⟩

/-- A text that a segment pattern matches in both readings: an `x` for each wildcard. -/
def expand (segment : Text) : Text := segment.map fun c => if isWildcard c then 120 else c

theorem fitsUnits_expand (segment : Text) : FitsUnits segment (expand segment) := by
  refine fits_map_self fun c _ => ?_
  rw [unitPiece]
  by_cases hstar : c = 42
  · exact .inl (if_pos hstar)
  · right
    rw [if_neg hstar]
    by_cases hmark : c = 63
    · exact ⟨_, if_pos hmark, trivial⟩
    · refine ⟨_, if_neg hmark, if_neg ?_⟩
      rw [isWildcard_iff]
      omega

theorem fitsCharacters_expand (segment : Text) : FitsCharacters segment (expand segment) := by
  have hmap : characters (expand segment) =
      (characters segment).map (List.map fun c => if isWildcard c then 120 else c) := by
    refine characters_map (fun c => ?_) segment
    by_cases h : isWildcard c = true
    · rw [if_pos h]
      exact .inr ⟨(not_surrogate_of_wildcard h).1, (not_surrogate_of_wildcard h).2, by decide, by decide⟩
    · exact .inl (if_neg h)
  rw [FitsCharacters, hmap]
  refine fits_map_self fun character hcharacter => ?_
  rcases mem_characters hcharacter with ⟨c, rfl⟩ | ⟨c, d, rfl, hc, hd⟩
  · rw [characterPiece_singleton]
    by_cases hstar : c = 42
    · exact .inl (if_pos hstar)
    · right
      rw [if_neg hstar]
      by_cases hmark : c = 63
      · exact ⟨_, if_pos hmark, trivial⟩
      · refine ⟨_, if_neg hmark, ?_⟩
        have hplain : ¬isWildcard c = true := by
          rw [isWildcard_iff]
          omega
        rw [List.map_singleton, if_neg hplain]
  · refine .inr ⟨_, characterPiece_pair c d, ?_⟩
    simp [not_wildcard_of_surrogate (.inl hc), not_wildcard_of_surrogate (.inr hd)]

/-- Texts for the segments of a pattern, none for a `**`. -/
def sample (pieces : List Text) : List Text := (pieces.filter fun s => s ≠ lit "**").map expand

section Frame

variable {accepts : Text → Text → Prop} (haccepts : ∀ s, accepts s (expand s))

theorem length_sample (pieces : List Text) :
    (sample pieces).length = least (pieces.map (segmentPieceBy accepts)) := by
  induction pieces with
  | nil => rfl
  | cons s pieces ih =>
    rw [List.map_cons, segmentPieceBy, sample]
    by_cases hany : s = lit "**"
    · rw [if_pos hany, List.filter_cons_of_neg (by simpa using hany)]
      exact ih
    · rw [if_neg hany, List.filter_cons_of_pos (by simpa using hany)]
      exact congrArg Nat.succ ih

include haccepts in
theorem fits_sample (pieces : List Text) :
    Fits (pieces.map (segmentPieceBy accepts)) (sample pieces) := by
  induction pieces with
  | nil => exact .nil
  | cons s pieces ih =>
    rw [List.map_cons, segmentPieceBy, sample]
    by_cases hany : s = lit "**"
    · rw [if_pos hany, List.filter_cons_of_neg (by simpa using hany)]
      exact .run [] ih
    · rw [if_neg hany, List.filter_cons_of_pos (by simpa using hany)]
      exact .one (haccepts s) ih

include haccepts in
/-- Among samples for the others, one text decides. -/
theorem fits_frame_iff {front back : List Text} {s text : Text} (hs : s ≠ lit "**") :
    Fits ((front ++ s :: back).map (segmentPieceBy accepts)) (sample front ++ text :: sample back) ↔
      accepts s text := by
  rw [List.map_append, List.map_cons, segmentPieceBy, if_neg hs]
  constructor
  · intro h
    exact h.accepts_of_least (length_sample front) (length_sample back)
  · intro h
    exact (fits_sample haccepts front).append (.one h (fits_sample haccepts back))

end Frame

/-- Where every segment of the pattern means the same on every segment of the path, so does the
pattern on the path. -/
theorem agrees_of_segments {pattern path : Text}
    (h : ∀ s ∈ segments pattern, ∀ text ∈ segments path, FitsUnits s text ↔ FitsCharacters s text) :
    Agrees pattern path := by
  rw [Agrees, matchesGlob_iff, documented_iff]
  refine fits_congr fun s hs => ?_
  rw [segmentPieceBy, segmentPieceBy]
  by_cases hany : s = lit "**"
  · exact .inl ⟨if_pos hany, if_pos hany⟩
  · exact .inr ⟨_, _, if_neg hany, if_neg hany, h s hs⟩

theorem careful_any : Careful (lit "**") := by
  have hall : ∀ c ∈ lit "**", c = 42 := by decide
  constructor
  · intro front wild back h
    left
    rw [List.count_eq_zero]
    intro hmem
    exact absurd (hall 63 (by rw [h.split]; simp [hmem])) (by decide)
  · intro front c w back h _
    rw [hall c (by rw [h]; simp)]
    decide
  · intro front w d back h _
    rw [hall d (by rw [h]; simp)]
    decide

theorem sample_spec {pieces : List Text} (h : ∀ s ∈ pieces, s ≠ [] ∧ 47 ∉ s) :
    ∀ text ∈ sample pieces, text ≠ [] ∧ 47 ∉ text := by
  intro text htext
  obtain ⟨s, hs, rfl⟩ := List.mem_map.mp htext
  obtain ⟨hne, hslash⟩ := h s (List.mem_filter.mp hs).1
  refine ⟨fun heq => hne (List.map_eq_nil_iff.mp heq), fun hmem => ?_⟩
  obtain ⟨c, hc, heq⟩ := List.mem_map.mp hmem
  split at heq
  · exact absurd heq (by decide)
  · rw [heq] at hc
    exact hslash hc

/-- **The patterns that keep to the documented meaning on every path.** -/
theorem agrees_on_paths_iff (pattern : Text) :
    (∀ path, Agrees pattern path) ↔ ∀ s ∈ segments pattern, Careful s := by
  constructor
  · intro h s hs
    by_contra hcareful
    obtain ⟨text, hslash, hne, hdiffers⟩ := differs_of_not_careful (segments_spec hs).2 hcareful
    have hany : s ≠ lit "**" := fun heq => hcareful (heq ▸ careful_any)
    obtain ⟨front, back, hsplit⟩ := List.append_of_mem hs
    have hspec : ∀ x ∈ front ++ s :: back, x ≠ [] ∧ 47 ∉ x := fun x hx => segments_spec (hsplit ▸ hx)
    have hpath : segments (rooted (sample front ++ text :: sample back)) =
        sample front ++ text :: sample back := by
      refine segments_rooted fun x hx => ?_
      rcases List.mem_append.mp hx with hx | hx
      · exact sample_spec (fun x hx => hspec x (List.mem_append_left _ hx)) x hx
      · rcases List.mem_cons.mp hx with rfl | hx
        · exact ⟨hne, hslash⟩
        · exact sample_spec (fun x hx => hspec x
            (List.mem_append_right _ (List.mem_cons_of_mem _ hx))) x hx
    have hagrees := h (rooted (sample front ++ text :: sample back))
    rw [Agrees, matchesGlob_iff, documented_iff, hpath, hsplit, fits_frame_iff fitsUnits_expand hany,
      fits_frame_iff fitsCharacters_expand hany] at hagrees
    exact hdiffers hagrees
  · intro h path
    exact agrees_of_segments fun s hs text _ => (h s hs).fits_iff text

/-! ### Paths without pairs -/

/-- No character of the text has two units. -/
def Unpaired (text : Text) : Prop := ∀ character ∈ characters text, character.length = 1

theorem characters_of_unpaired {text : Text} (h : Unpaired text) :
    characters text = text.map fun c => [c] := by
  induction text using characterInduction with
  | nil => exact characters_nil
  | single c text hcut ih =>
    rw [Unpaired, characters_cons hcut] at h
    rw [characters_cons hcut, ih fun character hmem => h character (List.mem_cons_of_mem _ hmem)]
    rfl
  | pair c d text hc hd _ =>
    rw [Unpaired, characters_pair hc hd] at h
    exact absurd (h [c, d] List.mem_cons_self) (by simp)

/-- Units that make no pair among them. -/
theorem not_adjacent_of_unpaired {front back : Text} {c d : ℕ} (h : Unpaired (front ++ c :: d :: back))
    (hc : isHighSurrogate c = true) (hd : isLowSurrogate d = true) : False := by
  rw [Unpaired, characters_around_pair hc hd] at h
  exact absurd (h [c, d] (List.mem_append_right _ List.mem_cons_self)) (by simp)

/-- On a text without pairs the readings of any segment pattern are the same. -/
theorem fits_iff_of_unpaired {text : Text} (h : Unpaired text) (segment : Text) :
    FitsUnits segment text ↔ FitsCharacters segment text := by
  rw [FitsUnits, FitsCharacters, characters_of_unpaired h, fits_map_iff, List.map_map]
  have hpair : ∀ front c d back, text = front ++ c :: d :: back → isHighSurrogate c = true →
      isLowSurrogate d = true → False := fun front c d back htext hc hd =>
    not_adjacent_of_unpaired (htext ▸ h) hc hd
  clear h
  induction segment using characterInduction generalizing text with
  | nil => rw [characters_nil, List.map_nil, List.map_nil]
  | single c segment hcut ih =>
    have hrest : ∀ taken rest, text = taken ++ rest →
        (Fits (segment.map unitPiece) rest ↔
          Fits ((characters segment).map ((Piece.comap fun c => [c]) ∘ characterPiece)) rest) := by
      intro taken rest htext
      refine ih fun front c d back hsplit hc hd => hpair (taken ++ front) c d back ?_ hc hd
      rw [htext, hsplit, List.append_assoc]
    rw [characters_cons hcut, List.map_cons, List.map_cons, Function.comp_apply,
      characterPiece_singleton, unitPiece]
    by_cases hstar : c = 42
    · rw [if_pos hstar, if_pos hstar, Piece.comap, fits_run_iff, fits_run_iff]
      exact exists₂_congr fun taken rest => and_congr_right fun htext => hrest taken rest htext
    · rw [if_neg hstar, if_neg hstar]
      cases text with
      | nil => refine iff_of_false ?_ ?_ <;> split <;> exact not_fits_one_nil
      | cons e text =>
        by_cases hmark : c = 63
        · rw [if_pos hmark, if_pos hmark, Piece.comap, fits_one_cons_iff, fits_one_cons_iff]
          exact and_congr_right fun _ => hrest [e] text rfl
        · rw [if_neg hmark, if_neg hmark, Piece.comap, fits_one_cons_iff, fits_one_cons_iff]
          refine and_congr ?_ (hrest [e] text rfl)
          exact ⟨fun heq => by rw [heq], fun heq => (List.cons.inj heq).1⟩
  | pair c d segment hc hd _ =>
    rw [characters_pair hc hd, List.map_cons, List.map_cons, List.map_cons, Function.comp_apply,
      characterPiece_pair, Piece.comap,
      unitPiece_of_not_wildcard (not_wildcard_of_surrogate (.inl hc)),
      unitPiece_of_not_wildcard (not_wildcard_of_surrogate (.inr hd))]
    refine iff_of_false (fun hfits => ?_) fun hfits => ?_
    · obtain ⟨_, after, rfl, rfl, hafter⟩ := fits_one_iff.mp hfits
      obtain ⟨_, rest, rfl, rfl, -⟩ := fits_one_iff.mp hafter
      exact hpair [] _ _ rest rfl hc hd
    · obtain ⟨e, rest, -, heq, -⟩ := fits_one_iff.mp hfits
      exact absurd heq (by simp)

theorem characters_withoutDot {path character : Text} (hlong : character.length ≠ 1) :
    character ∈ characters path ↔ character ∈ characters (withoutDot path) := by
  unfold withoutDot
  split
  · rename_i hdot
    obtain ⟨rest, rfl⟩ := List.isPrefixOf_iff_prefix.mp hdot
    have hsplit : characters (lit "./" ++ rest) = lit "." :: lit "/" :: characters rest :=
      (characters_cons (.inl (by decide))).trans
        (congrArg _ (characters_cons (.inl (by decide))))
    have hdrop : (lit "./" ++ rest).drop 2 = rest := rfl
    rw [hsplit, hdrop, List.mem_cons, List.mem_cons]
    constructor
    · rintro (rfl | rfl | h)
      · exact absurd rfl hlong
      · exact absurd rfl hlong
      · exact h
    · exact fun h => .inr (.inr h)
  · exact Iff.rfl

/-- A path without pairs has segments without pairs, and conversely. -/
theorem unpaired_iff_segments {path : Text} :
    Unpaired path ↔ ∀ text ∈ segments path, Unpaired text := by
  have hmem : ∀ character : Text, character.length ≠ 1 → (character ∈ characters path ↔
      ∃ text ∈ segments path, character ∈ characters text) := by
    intro character hlong
    have hne : character ≠ lit "/" := fun heq => hlong (heq ▸ rfl)
    have hsplit : (characters (withoutDot path)).splitOn (lit "/") =
        ((withoutDot path).splitOn 47).map characters :=
      splitOn_characters (by decide) (by decide) _
    rw [characters_withoutDot hlong, mem_iff_exists_mem_splitOn hne, hsplit]
    constructor
    · rintro ⟨piece, hpiece, hcharacter⟩
      obtain ⟨text, htext, rfl⟩ := List.mem_map.mp hpiece
      refine ⟨text, List.mem_filter.mpr ⟨htext, ?_⟩, hcharacter⟩
      rw [decide_eq_true_eq, gt_iff_lt, List.length_pos_iff]
      rintro rfl
      exact absurd hcharacter (by simp)
    · rintro ⟨text, htext, hcharacter⟩
      exact ⟨_, List.mem_map_of_mem (List.mem_filter.mp htext).1, hcharacter⟩
  constructor
  · intro h text htext character hcharacter
    by_contra hlong
    exact hlong (h character ((hmem character hlong).mpr ⟨text, htext, hcharacter⟩))
  · intro h character hcharacter
    by_contra hlong
    obtain ⟨text, htext, hmem⟩ := (hmem character hlong).mp hcharacter
    exact hlong (h text htext character hmem)

theorem length_characters_lt {text : Text} (h : ¬Unpaired text) :
    (characters text).length < text.length := by
  have hle : ∀ text : Text, (characters text).length ≤ text.length := by
    intro text
    induction text using characterInduction with
    | nil => simp
    | single c text hcut ih =>
      rw [characters_cons hcut]
      exact Nat.succ_le_succ ih
    | pair c d text hc hd ih =>
      rw [characters_pair hc hd, List.length_cons, List.length_cons, List.length_cons]
      omega
  induction text using characterInduction with
  | nil => exact absurd (fun c hc => by simp at hc) h
  | single c text hcut ih =>
    rw [characters_cons hcut]
    refine Nat.succ_lt_succ (ih fun hunpaired => h fun character hmem => ?_)
    rw [characters_cons hcut, List.mem_cons] at hmem
    rcases hmem with rfl | hmem
    · rfl
    · exact hunpaired character hmem
  | pair c d text hc hd _ =>
    rw [characters_pair hc hd, List.length_cons, List.length_cons, List.length_cons]
    have := hle text
    omega

/-- A `?` for each character of a text. -/
def marks (text : Text) : Text := List.replicate (characters text).length 63

theorem marks_wildcards (text : Text) : ∀ c ∈ marks text, isWildcard c = true := by
  intro c hc
  rw [List.eq_of_mem_replicate hc]
  decide

theorem count_marks (text : Text) : (marks text).count 63 = (characters text).length :=
  List.count_replicate_self

theorem fitsCharacters_marks (text : Text) : FitsCharacters (marks text) text := by
  refine fits_of_open_of_length (open_characters (marks_wildcards text)) ?_
  rw [(least_wild (marks_wildcards text)).2, count_marks]

theorem length_of_fits_marks {text : Text} (h : FitsUnits (marks text) text) :
    text.length = (characters text).length := by
  rw [h.length_eq, (least_wild (marks_wildcards text)).1, count_marks]
  intro hrun
  obtain ⟨c, hc, heq⟩ := List.mem_map.mp hrun
  rw [List.eq_of_mem_replicate hc] at heq
  exact absurd heq (by simp [unitPiece])

/-- A star for each of some segments. -/
def stars (texts : List Text) : List Text := texts.map fun _ => lit "*"

theorem stars_pieces (texts : List Text) (accepts : Text → Text → Prop) :
    (stars texts).map (segmentPieceBy accepts) = texts.map fun _ => .one (accepts (lit "*")) := by
  rw [stars, List.map_map]
  rfl

theorem fits_stars {texts : List Text} : Fits ((stars texts).map (segmentPieceBy FitsCharacters)) texts := by
  have hstar : ∀ text, FitsCharacters (lit "*") text := by
    intro text
    have h := Fits.run (characters text) Fits.nil
    rwa [List.append_nil] at h
  rw [stars_pieces]
  induction texts with
  | nil => exact .nil
  | cons text texts ih => exact .one (hstar text) ih

theorem least_stars (texts : List Text) (accepts : Text → Text → Prop) :
    texts.length = least ((stars texts).map (segmentPieceBy accepts)) := by
  rw [stars_pieces]
  induction texts with
  | nil => rfl
  | cons text texts ih => exact congrArg Nat.succ ih

/-- **The paths on which the documented meaning is kept under every pattern.** -/
theorem agrees_under_patterns_iff (path : Text) :
    (∀ pattern, Agrees pattern path) ↔ Unpaired path := by
  rw [unpaired_iff_segments]
  constructor
  · intro h text htext
    by_contra hpaired
    obtain ⟨front, back, hsplit⟩ := List.append_of_mem htext
    have hmarks : marks text ≠ [] := by
      intro heq
      have hlength := congrArg List.length heq
      rw [marks, List.length_replicate, List.length_nil, List.length_eq_zero_iff,
        characters_eq_nil_iff] at hlength
      exact (segments_spec htext).1 hlength
    have hpattern : segments (rooted (stars front ++ marks text :: stars back)) =
        stars front ++ marks text :: stars back := by
      have hstars : ∀ texts : List Text, ∀ s ∈ stars texts, s ≠ [] ∧ 47 ∉ s := by
        intro texts s hs
        obtain ⟨_, -, rfl⟩ := List.mem_map.mp hs
        decide
      refine segments_rooted fun s hs => ?_
      rcases List.mem_append.mp hs with hs | hs
      · exact hstars front s hs
      · rcases List.mem_cons.mp hs with rfl | hs
        · refine ⟨hmarks, fun hslash => ?_⟩
          exact absurd (marks_wildcards text 47 hslash) (by decide)
        · exact hstars back s hs
    have hany : marks text ≠ lit "**" := by
      intro heq
      have hmem : 42 ∈ marks text := by rw [heq]; decide
      exact absurd (List.eq_of_mem_replicate hmem) (by decide)
    have hagrees := h (rooted (stars front ++ marks text :: stars back))
    rw [Agrees, matchesGlob_iff, documented_iff, hpattern, hsplit, List.map_append, List.map_append,
      List.map_cons, List.map_cons, segmentPieceBy, segmentPieceBy, if_neg hany, if_neg hany] at hagrees
    have hunits := hagrees.mpr (fits_stars.append (.one (fitsCharacters_marks text) fits_stars))
    have hfits := hunits.accepts_of_least (least_stars front _) (least_stars back _)
    have := length_characters_lt hpaired
    have := length_of_fits_marks hfits
    omega
  · intro h pattern
    exact agrees_of_segments fun s _ text htext => fits_iff_of_unpaired (h text htext) s

/-- **Where the matcher keeps to its documentation.**  For a pattern: on every path, exactly when
its segments are careful.  For a path: under every pattern, exactly when every character of it is
one unit. -/
theorem matchesGlob_documented_iff (pattern path : Text) :
    ((∀ other, Agrees pattern other) ↔ ∀ s ∈ segments pattern, Careful s) ∧
      ((∀ other, Agrees other path) ↔ Unpaired path) :=
  ⟨agrees_on_paths_iff pattern, agrees_under_patterns_iff path⟩

/-- An emoji is one character, and `?` does not match it. -/
theorem mark_does_not_match_pair :
    matchesGlob (lit "?") [55357, 56832] = false ∧ Documented (lit "?") [55357, 56832] := by
  refine ⟨by decide, ?_⟩
  rw [documented_iff]
  exact .one (.one trivial .nil) .nil

end Newsdeck.Loop

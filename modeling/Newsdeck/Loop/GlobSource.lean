import Newsdeck.Ecma.Characters
import Newsdeck.Library.Splitting
import Newsdeck.Library.Wildcards
import Newsdeck.Loop.Glob

/-!
# What a segment pattern compiles to

The matcher hands the engine the *source* of a regular expression: it walks the characters of the
segment, writes a class for a wildcard and escapes the rest.  This file spells that source, reads it
with the grammar of the language as far as it is used, and says what it matches.

* `compileSource_segmentSource` — the source reads as `segmentToRegExp`: every character that means
  something to the engine is escaped, and nothing else is;
* `segmentToRegExp_test_iff` — a segment is matched unit by unit;
* `matchesGlob_iff` — so is a path, segment by segment.
-/

namespace Newsdeck.Loop

open Ecma Ecma.Regex Wildcards

/-! ### The source -/

/-- The class `[.+^${}()|[\]\\]`. -/
def escapedUnits : Text := lit ".+^$\x7b\x7d()|[]\\"

/-- `character.replace(/[.+^${}()|[\]\\]/g, '\\$&')`. -/
def escapeCharacter (character : Text) : Text :=
  character.flatMap fun c => if c ∈ escapedUnits then [92, c] else [c]

def characterSource (character : Text) : Text :=
  if character = lit "*" then lit "[^/]*"
  else if character = lit "?" then lit "[^/]"
  else escapeCharacter character

/-- The text `segmentToRegExp` passes to `new RegExp`. -/
def segmentSource (segment : Text) : Text :=
  lit "^" ++ (characters segment).flatMap characterSource ++ lit "$"

/-! ### Reading a source -/

/-- `SyntaxCharacter` of the grammar. -/
def syntaxUnits : Text := lit "^$\\.*+?()[]\x7b\x7d|"

/-- The members of a class up to its bracket; classes with an escape or a range are not covered. -/
def readClass : Text → Option (Text × Text)
  | [] => none
  | c :: rest =>
      if c = 93 then some ([], rest)
      else if c = 92 ∨ c = 45 then none
      else (readClass rest).map fun (members, rest) => (c :: members, rest)

/-- One atom: an escaped character, a negated class, a character that needs no escape. -/
def readAtom : Text → Option (Regex ℕ × Text)
  | [] => none
  | c :: rest =>
      if c = 92 then
        match rest with
        | [] => none
        | d :: rest => if d ∈ syntaxUnits then some (.units [d], rest) else none
      else if c = 91 then
        match rest with
        | 94 :: rest => (readClass rest).map fun (members, rest) =>
            (.cls fun c => c ∉ members, rest)
        | _ => none
      else if c ∈ syntaxUnits then none
      else some (.units [c], rest)

/-- The terms of an alternative.  The first argument bounds their number. -/
def readTerms : ℕ → Text → Option (List (Regex ℕ))
  | _, [] => some []
  | 0, _ :: _ => none
  | bound + 1, c :: rest =>
      if c = 94 then (readTerms bound rest).map (.bol :: ·)
      else if c = 36 then (readTerms bound rest).map (.eol :: ·)
      else
        match readAtom (c :: rest) with
        | none => none
        | some (atom, 42 :: rest) => (readTerms bound rest).map (.many atom :: ·)
        | some (atom, rest) => (readTerms bound rest).map (atom :: ·)

/-- `new RegExp(source)`; `none` where the source uses more of the grammar. -/
def compileSource (source : Text) : Option (Regex ℕ) :=
  (readTerms source.length source).map .cat

/-! ### The source of a segment -/

/-- What one unit of a segment contributes. -/
def unitSource (c : ℕ) : Text :=
  if c = 42 then lit "[^/]*"
  else if c = 63 then lit "[^/]"
  else if c ∈ escapedUnits then [92, c]
  else [c]

theorem characterSource_singleton (c : ℕ) : characterSource [c] = unitSource c := by
  unfold characterSource unitSource
  by_cases hstar : c = 42
  · rw [hstar]
    rfl
  · by_cases hmark : c = 63
    · rw [hmark]
      rfl
    · have hne : ∀ d, c ≠ d → [c] ≠ [d] := fun d h heq => h (List.cons.inj heq).1
      have hstar' : [c] ≠ lit "*" := hne 42 hstar
      have hmark' : [c] ≠ lit "?" := hne 63 hmark
      rw [if_neg hstar', if_neg hmark', if_neg hstar, if_neg hmark]
      exact List.append_nil _

/-- The engine reads units, so it does not matter that the source was written by characters. -/
theorem characterSource_eq {text character : Text} (h : character ∈ characters text) :
    characterSource character = character.flatMap unitSource := by
  rcases mem_characters h with ⟨c, rfl⟩ | ⟨c, d, rfl, hc, hd⟩
  · rw [characterSource_singleton]
    exact (List.append_nil _).symm
  · simp only [Json.isHighSurrogate, Json.isLowSurrogate, Bool.and_eq_true,
      decide_eq_true_eq] at hc hd
    have hplain : ∀ e, 55296 ≤ e → unitSource e = if e ∈ escapedUnits then [92, e] else [e] := by
      intro e he
      unfold unitSource
      rw [if_neg (by omega), if_neg (by omega)]
    rw [List.flatMap_cons, List.flatMap_singleton, hplain c hc.1, hplain d (by omega)]
    have htwo : ∀ e : ℕ, [c, d] ≠ [e] := by simp
    have hstar : [c, d] ≠ lit "*" := htwo 42
    have hmark : [c, d] ≠ lit "?" := htwo 63
    rw [characterSource, if_neg hstar, if_neg hmark, escapeCharacter, List.flatMap_cons,
      List.flatMap_singleton]

theorem segmentSource_eq (segment : Text) :
    segmentSource segment = 94 :: (segment.flatMap unitSource ++ [36]) := by
  have hsources : (characters segment).flatMap characterSource =
      (characters segment).flatten.flatMap unitSource := by
    rw [List.flatten_eq_flatMap, List.flatMap_assoc]
    exact List.flatMap_congr fun character hcharacter => characterSource_eq hcharacter
  rw [segmentSource, hsources, flatten_characters]
  rfl

/-- No source starts with a star: what is read before it is not quantified. -/
theorem head?_unitSource_ne (c : ℕ) (rest : Text) : (unitSource c ++ rest).head? ≠ some 42 := by
  unfold unitSource
  split
  · exact fun h => absurd (Option.some.inj h) (by decide)
  · split
    · exact fun h => absurd (Option.some.inj h) (by decide)
    · split
      · exact fun h => absurd (Option.some.inj h) (by decide)
      · rename_i hstar _ _
        exact fun h => hstar (Option.some.inj h)

theorem head?_sources_ne (segment : Text) :
    (segment.flatMap unitSource ++ [36]).head? ≠ some 42 := by
  cases segment with
  | nil => exact fun h => absurd (Option.some.inj h) (by decide)
  | cons c segment =>
    rw [List.flatMap_cons, List.append_assoc]
    exact head?_unitSource_ne c _

/-- An atom that is not quantified is a term. -/
theorem readTerms_atom {bound c : ℕ} {rest rest' : Text} {atom : Regex ℕ}
    (hatom : readAtom (c :: rest) = some (atom, rest')) (hanchor : c ≠ 94 ∧ c ≠ 36)
    (hstar : rest'.head? ≠ some 42) :
    readTerms (bound + 1) (c :: rest) = (readTerms bound rest').map (atom :: ·) := by
  rw [readTerms, if_neg hanchor.1, if_neg hanchor.2, hatom]
  split
  · rename_i heq
    exact absurd heq (by simp)
  · rename_i heq
    obtain ⟨-, rfl⟩ := Prod.mk.inj (Option.some.inj heq)
    exact absurd rfl hstar
  · rename_i heq
    obtain ⟨rfl, rfl⟩ := Prod.mk.inj (Option.some.inj heq)
    rfl

/-- What a unit contributes is read as its piece. -/
theorem readTerms_unitSource (bound c : ℕ) {rest : Text} (hstar : rest.head? ≠ some 42) :
    readTerms (bound + 1) (unitSource c ++ rest) =
      (readTerms bound rest).map (segmentPiece c :: ·) := by
  have hclass : ∀ more : Text, readAtom (lit "[^/]" ++ more) = some (.notChars "/", more) :=
    fun _ => rfl
  unfold unitSource segmentPiece
  by_cases hc : c = 42
  · rw [if_pos hc, if_pos hc]
    rfl
  · rw [if_neg hc, if_neg hc]
    by_cases hc' : c = 63
    · rw [if_pos hc', if_pos hc']
      exact readTerms_atom (hclass rest) (by decide) hstar
    · rw [if_neg hc', if_neg hc']
      -- what is left of the syntax characters is escaped
      have hescaped : c ∈ escapedUnits ↔ c ∈ syntaxUnits := by
        simp only [escapedUnits, syntaxUnits, lit]
        simp
        omega
      split
      · rename_i hmem
        refine readTerms_atom ?_ (by decide) hstar
        show (if c ∈ syntaxUnits then _ else _) = _
        rw [if_pos (hescaped.mp hmem)]
        rfl
      · rename_i hmem
        rw [hescaped] at hmem
        have hplain : c ≠ 92 ∧ c ≠ 91 ∧ c ≠ 94 ∧ c ≠ 36 := by
          refine ⟨?_, ?_, ?_, ?_⟩ <;> rintro rfl <;> exact hmem (by decide)
        refine readTerms_atom ?_ ⟨hplain.2.2.1, hplain.2.2.2⟩ hstar
        show readAtom (c :: rest) = _
        rw [readAtom.eq_def]
        simp only [hplain.1, hplain.2.1, hmem, if_false]

theorem readTerms_sources (segment : Text) : ∀ bound, segment.length < bound →
    readTerms bound (segment.flatMap unitSource ++ [36]) =
      some (segment.map segmentPiece ++ [.eol]) := by
  induction segment with
  | nil =>
    intro bound hbound
    obtain ⟨bound, rfl⟩ := Nat.exists_eq_succ_of_ne_zero (Nat.ne_of_gt hbound)
    show (readTerms bound []).map _ = _
    rw [readTerms]
    rfl
  | cons c segment ih =>
    intro bound hbound
    obtain ⟨bound, rfl⟩ := Nat.exists_eq_succ_of_ne_zero (Nat.ne_zero_of_lt hbound)
    rw [List.flatMap_cons, List.append_assoc, readTerms_unitSource bound c (head?_sources_ne segment),
      ih bound (by simpa using hbound)]
    rfl

theorem length_le_sources (segment : Text) : segment.length ≤ (segment.flatMap unitSource).length := by
  induction segment with
  | nil => exact le_rfl
  | cons c segment ih =>
    have hpos : 1 ≤ (unitSource c).length := by
      unfold unitSource
      split
      · decide
      · split
        · decide
        · split <;> simp
    rw [List.flatMap_cons, List.length_append, List.length_cons]
    omega

theorem cat_pieces (segment : Text) :
    cat (segment.map segmentPiece ++ [.eol]) = segmentBody segment := by
  induction segment with
  | nil => rfl
  | cons c segment ih =>
    rw [segmentBody, ← ih]
    cases segment <;> rfl

/-- **The source is read as it is meant.** -/
theorem compileSource_segmentSource (segment : Text) :
    compileSource (segmentSource segment) = some (segmentToRegExp segment) := by
  rw [segmentSource_eq, compileSource, List.length_cons, readTerms, if_pos rfl,
    readTerms_sources segment]
  · rw [Option.map_some, Option.map_some, segmentToRegExp, ← cat_pieces]
    cases segment <;> rfl
  · have := length_le_sources segment
    rw [List.length_append, List.length_singleton]
    omega

/-! ### What a segment matches -/

/-- A greedy run succeeds when it can stop somewhere. -/
theorem takeGreedy_ne_none_iff {p : ℕ → Bool} {k : Cont ℕ} {before text : Text} {caps : Captures ℕ} :
    takeGreedy p k before text caps ≠ none ↔ ∃ taken rest, text = taken ++ rest ∧
      (∀ c ∈ taken, p c = true) ∧ k ⟨taken.reverse ++ before, rest⟩ caps ≠ none := by
  constructor
  · intro h
    by_contra hnone
    push Not at hnone
    exact h (greedy_none p k caps text before fun taken rest htext htaken =>
      hnone taken rest htext htaken)
  · rintro ⟨taken, rest, rfl, htaken, hk⟩
    induction taken generalizing before with
    | nil =>
      cases rest with
      | nil => exact hk
      | cons c rest =>
        rw [List.nil_append, takeGreedy]
        split
        · exact fun h => hk (Option.or_eq_none_iff.mp h).2
        · exact hk
    | cons c taken ih =>
      have hc := htaken c List.mem_cons_self
      have hlater : takeGreedy p k (c :: before) (taken ++ rest) caps ≠ none := ih
        (fun d hd => htaken d (List.mem_cons_of_mem _ hd)) (by rwa [List.reverse_cons, List.append_assoc] at hk)
      rw [List.cons_append, takeGreedy, if_pos hc]
      exact fun h => hlater (Option.or_eq_none_iff.mp h).1

/-- What a unit of a segment pattern stands for. -/
def unitPiece (c : ℕ) : Piece ℕ :=
  if c = 42 then .run else if c = 63 then .one fun _ => True else .one fun d => d = c

theorem segmentBody_run_iff (segment : Text) : ∀ (before text : Text) (caps : Captures ℕ),
    47 ∉ text → ((segmentBody segment).run done ⟨before, text⟩ caps ≠ none ↔
      Fits (segment.map unitPiece) text) := by
  induction segment with
  | nil =>
    intro before text caps _
    cases text with
    | nil => exact iff_of_true (Option.some_ne_none _) .nil
    | cons c text => exact iff_of_false (not_not_intro rfl) (by simp)
  | cons c segment ih =>
    intro before text caps hslash
    rw [segmentBody, run_seq, List.map_cons, segmentPiece, unitPiece]
    by_cases hstar : c = 42
    · rw [if_pos hstar, if_pos hstar, fits_run_iff, Regex.notChars, run_many,
        takeGreedy_ne_none_iff]
      refine exists₂_congr fun taken rest => and_congr_right fun htext => ?_
      rw [htext, List.mem_append, not_or] at hslash
      rw [ih _ _ _ hslash.2]
      refine and_iff_right fun d hd => ?_
      have hne : d ≠ 47 := fun heq => hslash.1 (heq ▸ hd)
      simpa [lit] using hne
    · rw [if_neg hstar, if_neg hstar]
      cases text with
      | nil =>
        refine iff_of_false (not_not_intro ?_) (by split <;> exact not_fits_one_nil)
        split <;> rfl
      | cons d text =>
        have hd : d ≠ 47 := fun heq => hslash (List.mem_cons.mpr (.inl heq.symm))
        have hrest := ih (d :: before) text caps (List.not_mem_of_not_mem_cons hslash)
        by_cases hmark : c = 63
        · rw [if_pos hmark, if_pos hmark, fits_one_cons_iff, Regex.notChars, run_cls_cons,
            if_pos (by simpa [lit] using hd), hrest, true_and]
        · rw [if_neg hmark, if_neg hmark, fits_one_cons_iff, Regex.units, Regex.units, run_seq,
            run_cls_cons]
          by_cases heq : d = c
          · rw [if_pos (by simpa using heq), run_empty, hrest, and_iff_right heq]
          · rw [if_neg (by simpa using heq)]
            exact iff_of_false (not_not_intro rfl) fun h => heq h.1

/-- **A segment is matched unit by unit.** -/
theorem segmentToRegExp_test_iff (segment : Text) {text : Text} (h : 47 ∉ text) :
    (segmentToRegExp segment).test text = true ↔ Fits (segment.map unitPiece) text := by
  rw [← segmentBody_run_iff segment [] text [] h, segmentToRegExp, Regex.test, exec_bol,
    Option.isSome_iff_ne_none]

/-! ### What a path matches -/

/-- What a segment of a pattern stands for, given what a segment matches. -/
def segmentPieceBy (accepts : Text → Text → Prop) (segment : Text) : Piece Text :=
  if segment = lit "**" then .run else .one (accepts segment)

/-- The text fits the segment pattern, both read by units. -/
def FitsUnits (segment text : Text) : Prop := Fits (segment.map unitPiece) text

theorem matchSegments_iff (pattern : List Text) : ∀ path : List Text, (∀ s ∈ path, 47 ∉ s) →
    (matchSegments pattern path = true ↔ Fits (pattern.map (segmentPieceBy FitsUnits)) path) := by
  induction pattern with
  | nil =>
    intro path _
    rw [matchSegments, decide_eq_true_eq, List.length_eq_zero_iff]
    exact fits_nil_iff.symm
  | cons head rest ih =>
    intro path hpath
    rw [List.map_cons, segmentPieceBy]
    by_cases hany : head = lit "**"
    · rw [if_pos hany, matchSegments.eq_def]
      simp only [hany, if_true, List.any_eq_true, List.mem_range]
      rw [fits_run_iff]
      constructor
      · rintro ⟨consumed, -, h⟩
        exact ⟨path.take consumed, path.drop consumed, (List.take_append_drop _ _).symm,
          (ih _ fun s hs => hpath s (List.mem_of_mem_drop hs)).mp h⟩
      · rintro ⟨taken, left, rfl, h⟩
        refine ⟨taken.length, by rw [List.length_append]; omega, ?_⟩
        rw [List.drop_left]
        exact (ih _ fun s hs => hpath s (List.mem_append_right _ hs)).mpr h
    · rw [if_neg hany, matchSegments.eq_def]
      simp only [hany, if_false]
      cases path with
      | nil => exact iff_of_false Bool.false_ne_true not_fits_one_nil
      | cons first path =>
        have htest := segmentToRegExp_test_iff head (hpath first List.mem_cons_self)
        rw [fits_one_cons_iff, ← ih path fun s hs => hpath s (List.mem_cons_of_mem _ hs)]
        dsimp only
        rw [FitsUnits, ← htest]
        cases (segmentToRegExp head).test first <;> simp

theorem not_mem_of_mem_segments {path s : Text} (h : s ∈ segments path) : 47 ∉ s :=
  Splitting.not_mem_of_mem_splitOn (List.mem_filter.mp h).1

/-- **A path is matched segment by segment.** -/
theorem matchesGlob_iff (pattern path : Text) : matchesGlob pattern path = true ↔
    Fits ((segments pattern).map (segmentPieceBy FitsUnits)) (segments path) :=
  matchSegments_iff _ _ fun _ hs => not_mem_of_mem_segments hs

end Newsdeck.Loop

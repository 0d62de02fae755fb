import Newsdeck.Ecma.Derivations
import Newsdeck.Library.Layouts
import Newsdeck.Loop.Checks
import Newsdeck.Loop.Protections
import Newsdeck.Loop.Risk

/-!
# Destructive statements and line breaks

The patterns of `findDestructiveSql` allow any whitespace between two words of a statement, and
anything between `ALTER TABLE` and what it drops.  They are tried on one line at a time.

* `exists_pattern_iff` — the patterns in words: `TRUNCATE`, or a phrase of several words;
* `found_iff` — a phrase is found when it has no line break in it;
* `wrapping_kept_iff` — for which texts the answer does not depend on the line breaks.
-/

namespace Newsdeck.Loop

open Ecma Layouts

/-! ### The patterns in words -/

/-- No word around a section runs on into it. -/
structure Alone (front back : Text) : Prop where
  front : Relaid.EndsFree isWord front
  back : Relaid.StartsFree isWord back

/-- Two words in any case, whitespace between them. -/
inductive Phrase (first second : Text) : Text → Prop
  | intro {a gap b : Text} (hfirst : a.map foldCase = first) (hgap : Blank isSpace gap)
      (hsecond : b.map foldCase = second) : Phrase first second (a ++ gap ++ b)

/-- `TRUNCATE` stands between two texts. -/
structure TruncatesAt (front here back : Text) : Prop where
  word : here.map foldCase = lit "truncate"
  alone : Alone front back

/-- A destructive statement of several words stands between two texts. -/
inductive DestroysAt : Text → Text → Text → Prop
  | drop {front here back kind : Text}
      (hkind : kind ∈ [lit "table", lit "schema", lit "database"])
      (hdrop : Phrase (lit "drop") kind here) (halone : Alone front back) :
      DestroysAt front here back
  | alter {front altered between dropped back kind : Text}
      (hkind : kind ∈ [lit "column", lit "constraint"])
      (halter : Phrase (lit "alter") (lit "table") altered)
      (hdrop : Phrase (lit "drop") kind dropped)
      (halone : Alone front (between ++ (dropped ++ back)))
      (halone' : Alone (front ++ altered ++ between) back) :
      DestroysAt front (altered ++ (between ++ dropped)) back

def Truncates (text : Text) : Prop :=
  ∃ front here back, text = front ++ here ++ back ∧ TruncatesAt front here back

def Destroys (text : Text) : Prop :=
  ∃ front here back, text = front ++ here ++ back ∧ DestroysAt front here back

/-! ### Each pattern -/

section Patterns

open Regex

variable {b t : Text} {caps : Captures ℕ} {s' : Cursor ℕ × Captures ℕ}

theorem takes_ignoreCase_spaces : spaces.ignoreCase.Takes (⟨b, t⟩, caps) s' ↔
    ∃ gap v, t = gap ++ v ∧ Blank isSpace gap ∧ s' = (⟨gap.reverse ++ b, v⟩, caps) := by
  have hspaces : spaces.ignoreCase = many1 (.cls isSpace) := by
    have hclass : (fun c => isSpace c || isSpace (swapCase c)) = isSpace := by
      funext c
      rw [isSpace_swapCase, Bool.or_self]
    show Regex.seq (.cls fun c => isSpace c || isSpace (swapCase c))
      (.star true (.cls fun c => isSpace c || isSpace (swapCase c))) = _
    rw [hclass]
    rfl
  rw [hspaces, takes_many1]
  constructor
  · rintro ⟨u, v, rfl, hne, hu, rfl⟩
    exact ⟨u, v, rfl, ⟨hne, hu⟩, rfl⟩
  · rintro ⟨u, v, rfl, ⟨hne, hu⟩, rfl⟩
    exact ⟨u, v, rfl, hne, hu, rfl⟩

/-- A literal of lower-case letters. -/
structure Lettered (word : String) : Prop where
  ne_nil : lit word ≠ []
  lower : ∀ c ∈ lit word, isLower c = true

namespace Lettered

variable {word : String} {here : Text}

theorem isLower_of_map (h : Lettered word) (hhere : here.map foldCase = lit word) {c : ℕ}
    (hc : c ∈ here) : isLower (foldCase c) = true :=
  h.lower _ (hhere ▸ List.mem_map_of_mem hc)

theorem not_space (h : Lettered word) (hhere : here.map foldCase = lit word) :
    ∀ c ∈ here, isSpace c = false :=
  fun _ hc => isSpace_of_foldCase_isLower (h.isLower_of_map hhere hc)

theorem ne_nil_of_map (h : Lettered word) (hhere : here.map foldCase = lit word) : here ≠ [] := by
  rintro rfl
  exact h.ne_nil hhere.symm

/-- The boundary before a word. -/
theorem atBoundary_before (h : Lettered word) (hhere : here.map foldCase = lit word)
    (front text : Text) :
    atBoundary isWord ⟨front.reverse, here ++ text⟩ = true ↔ Relaid.EndsFree isWord front := by
  obtain ⟨c, rest, rfl⟩ := List.exists_cons_of_ne_nil (h.ne_nil_of_map hhere)
  have hc := isWord_of_foldCase_isLower (h.isLower_of_map hhere List.mem_cons_self)
  cases hlast : front.getLast? <;>
    simp [atBoundary, Relaid.EndsFree, hc, List.head?_reverse, hlast]

/-- The boundary after a word. -/
theorem atBoundary_after (h : Lettered word) (hhere : here.map foldCase = lit word)
    (text back : Text) :
    atBoundary isWord ⟨here.reverse ++ text, back⟩ = true ↔ Relaid.StartsFree isWord back := by
  obtain ⟨c, rest, hrev⟩ := List.exists_cons_of_ne_nil
    (mt List.reverse_eq_nil_iff.mp (h.ne_nil_of_map hhere))
  have hmem : c ∈ here := List.mem_reverse.mp (hrev ▸ List.mem_cons_self)
  have hc := isWord_of_foldCase_isLower (h.isLower_of_map hhere hmem)
  rw [hrev]
  cases hhead : back.head? <;> simp [atBoundary, Relaid.StartsFree, hc, hhead]

end Lettered

/-- Two words of a pattern, as it is written. -/
def phrase (first second : String) : List (Regex ℕ) :=
  [.wordBoundary, .str first, spaces, .str second, .wordBoundary]

theorem takes_phrase {first second : String} (hfirst : Lettered first) (hsecond : Lettered second)
    {front : Text} : (cat (phrase first second)).ignoreCase.Takes (⟨front.reverse, t⟩, caps) s' ↔
      ∃ here back, t = here ++ back ∧ Phrase (lit first) (lit second) here ∧ Alone front back ∧
        s' = (⟨(front ++ here).reverse, back⟩, caps) := by
  rw [phrase, ignoreCase_cat]
  simp only [List.map_cons, List.map_nil]
  constructor
  · rintro ⟨_, ⟨hbefore, rfl⟩, _, hword, _, hspaces, _, hword', hafter, rfl⟩
    obtain ⟨a, rest, rfl, ha, rfl⟩ := (takes_ignoreCase_units hfirst.lower).mp hword
    obtain ⟨gap, rest, rfl, hgap, rfl⟩ := takes_ignoreCase_spaces.mp hspaces
    obtain ⟨b, back, rfl, hb, rfl⟩ := (takes_ignoreCase_units hsecond.lower).mp hword'
    refine ⟨a ++ gap ++ b, back, by simp, .intro ha hgap hb, ⟨?_, ?_⟩, by simp⟩
    · exact (hfirst.atBoundary_before ha _ _).mp hbefore
    · exact (hsecond.atBoundary_after hb _ _).mp hafter
  · rintro ⟨_, back, rfl, @⟨a, gap, b, ha, hgap, hb⟩, ⟨hfree, hfree'⟩, rfl⟩
    refine ⟨_, ⟨?_, rfl⟩, _, (takes_ignoreCase_units hfirst.lower).mpr
        ⟨a, gap ++ (b ++ back), by simp, ha, rfl⟩, _,
      takes_ignoreCase_spaces.mpr ⟨gap, b ++ back, rfl, hgap, rfl⟩, _,
      (takes_ignoreCase_units hsecond.lower).mpr ⟨b, back, rfl, hb, rfl⟩, ?_, by simp⟩
    · simpa using (hfirst.atBoundary_before ha front (gap ++ (b ++ back))).mpr hfree
    · exact (hsecond.atBoundary_after hb _ _).mpr hfree'

theorem lettered_truncate : Lettered "truncate" := ⟨by decide, by decide⟩

theorem truncate_test_iff {line : Text} :
    (Regex.ignoreCase (.cat [.wordBoundary, .str "truncate", .wordBoundary])).test line = true ↔
      Truncates line := by
  rw [test_iff, Truncates]
  constructor
  · rintro ⟨front, t, rfl, _, _, ⟨hbefore, rfl⟩, _, hword, hafter, rfl⟩
    obtain ⟨here, back, rfl, hhere, rfl⟩ :=
      (takes_ignoreCase_units lettered_truncate.lower).mp hword
    refine ⟨front, here, back, by simp, hhere, ?_, ?_⟩
    · exact (lettered_truncate.atBoundary_before hhere _ _).mp hbefore
    · exact (lettered_truncate.atBoundary_after hhere _ _).mp hafter
  · rintro ⟨front, here, back, rfl, hhere, hfree, hfree'⟩
    refine ⟨front, here ++ back, by simp, _, _, ⟨?_, rfl⟩, _,
      (takes_ignoreCase_units lettered_truncate.lower).mpr ⟨here, back, rfl, hhere, rfl⟩, ?_, rfl⟩
    · exact (lettered_truncate.atBoundary_before hhere _ _).mpr hfree
    · exact (lettered_truncate.atBoundary_after hhere _ _).mpr hfree'

theorem drop_test_iff {kind : String} (hkind : Lettered kind) {line : Text} :
    (cat (phrase "drop" kind)).ignoreCase.test line = true ↔
      ∃ front here back, line = front ++ here ++ back ∧ Phrase (lit "drop") (lit kind) here ∧
        Alone front back := by
  have hdrop : Lettered "drop" := ⟨by decide, by decide⟩
  rw [test_iff]
  constructor
  · rintro ⟨front, t, rfl, x, htakes⟩
    obtain ⟨here, back, rfl, hphrase, halone, -⟩ := (takes_phrase hdrop hkind).mp htakes
    exact ⟨front, here, back, by simp, hphrase, halone⟩
  · rintro ⟨front, here, back, rfl, hphrase, halone⟩
    exact ⟨front, here ++ back, by simp, _,
      (takes_phrase hdrop hkind).mpr ⟨here, back, rfl, hphrase, halone, rfl⟩⟩

theorem alter_test_iff {kind : String} (hkind : Lettered kind) {line : Text} :
    (cat (phrase "alter" "table" ++ (.lazy .any :: phrase "drop" kind))).ignoreCase.test
      line = true ↔
      ∃ front altered between dropped back,
        line = front ++ (altered ++ (between ++ dropped)) ++ back ∧
        Phrase (lit "alter") (lit "table") altered ∧ Phrase (lit "drop") (lit kind) dropped ∧
        Alone front (between ++ (dropped ++ back)) ∧ Alone (front ++ altered ++ between) back := by
  have hdrop : Lettered "drop" := ⟨by decide, by decide⟩
  have halter : Lettered "alter" := ⟨by decide, by decide⟩
  have htable : Lettered "table" := ⟨by decide, by decide⟩
  have hany : Regex.ignoreCase (.lazy .any) = lazy (.cls fun _ => true) := by
    show Regex.star false (.cls fun _ => true || true) = _
    rfl
  rw [test_iff, ignoreCase_cat, List.map_append, List.map_cons, hany]
  constructor
  · rintro ⟨front, t, rfl, x, htakes⟩
    obtain ⟨_, hfirst, hrest⟩ := (takes_cat_append _ _).mp htakes
    rw [← ignoreCase_cat] at hfirst
    obtain ⟨altered, rest, rfl, haltered, halone, rfl⟩ := (takes_phrase halter htable).mp hfirst
    obtain ⟨_, hlazy, hlast⟩ := hrest
    obtain ⟨between, rest, rfl, -, rfl⟩ := takes_lazy.mp hlazy
    rw [← List.reverse_append, ← ignoreCase_cat] at hlast
    obtain ⟨dropped, back, rfl, hdropped, halone', -⟩ := (takes_phrase hdrop hkind).mp hlast
    exact ⟨front, altered, between, dropped, back, by simp, haltered, hdropped, halone, halone'⟩
  · rintro ⟨front, altered, between, dropped, back, rfl, haltered, hdropped, halone, halone'⟩
    refine ⟨front, altered ++ (between ++ (dropped ++ back)), by simp,
      (⟨(front ++ altered ++ between ++ dropped).reverse, back⟩, []),
      (takes_cat_append _ _).mpr
        ⟨(⟨(front ++ altered).reverse, between ++ (dropped ++ back)⟩, []), ?_,
        (⟨(front ++ altered ++ between).reverse, dropped ++ back⟩, []), ?_, ?_⟩⟩
    · rw [← ignoreCase_cat]
      exact (takes_phrase halter htable).mpr ⟨altered, _, rfl, haltered, halone, rfl⟩
    · exact takes_lazy.mpr ⟨between, _, rfl, fun _ _ => rfl, by simp⟩
    · rw [← ignoreCase_cat]
      exact (takes_phrase hdrop hkind).mpr ⟨dropped, back, rfl, hdropped, halone', rfl⟩

theorem destroys_iff {line : Text} : Destroys line ↔
    (∃ kind ∈ [lit "table", lit "schema", lit "database"], ∃ front here back,
      line = front ++ here ++ back ∧ Phrase (lit "drop") kind here ∧ Alone front back) ∨
    ∃ kind ∈ [lit "column", lit "constraint"], ∃ front altered between dropped back,
      line = front ++ (altered ++ (between ++ dropped)) ++ back ∧
      Phrase (lit "alter") (lit "table") altered ∧ Phrase (lit "drop") kind dropped ∧
      Alone front (between ++ (dropped ++ back)) ∧ Alone (front ++ altered ++ between) back := by
  constructor
  · rintro ⟨front, here, back, rfl, h⟩
    cases h with
    | drop hkind hdrop halone => exact .inl ⟨_, hkind, _, _, _, rfl, hdrop, halone⟩
    | alter hkind halter hdrop halone halone' =>
      exact .inr ⟨_, hkind, _, _, _, _, _, rfl, halter, hdrop, halone, halone'⟩
  · rintro (⟨kind, hkind, front, here, back, rfl, hdrop, halone⟩ |
      ⟨kind, hkind, front, altered, between, dropped, back, rfl, halter, hdrop, halone, halone'⟩)
    · exact ⟨front, here, back, rfl, .drop hkind hdrop halone⟩
    · exact ⟨front, _, back, rfl, .alter hkind halter hdrop halone halone'⟩

/-- The patterns, one after the other. -/
theorem destructiveSql_any {p : Regex ℕ → Prop} :
    (∃ pattern ∈ destructiveSql, p pattern.regex) ↔
      (p (cat (phrase "drop" "table")).ignoreCase ∨ p (cat (phrase "drop" "schema")).ignoreCase ∨
        p (cat (phrase "drop" "database")).ignoreCase) ∨
      p (Regex.ignoreCase (.cat [.wordBoundary, .str "truncate", .wordBoundary])) ∨
      p (cat (phrase "alter" "table" ++ (.lazy .any :: phrase "drop" "column"))).ignoreCase ∨
      p (cat (phrase "alter" "table" ++
        (.lazy .any :: phrase "drop" "constraint"))).ignoreCase := by
  simp only [destructiveSql, List.exists_mem_cons_iff, List.not_mem_nil, false_and, exists_false,
    or_false, or_assoc, phrase, List.cons_append, List.nil_append]

theorem lettered_kinds : (Lettered "table" ∧ Lettered "schema" ∧ Lettered "database") ∧
    Lettered "column" ∧ Lettered "constraint" := by
  refine ⟨⟨⟨?_, ?_⟩, ⟨?_, ?_⟩, ⟨?_, ?_⟩⟩, ⟨?_, ?_⟩, ⟨?_, ?_⟩⟩ <;> decide

/-- **The patterns in words.** -/
theorem exists_pattern_iff {line : Text} :
    (∃ pattern ∈ destructiveSql, pattern.regex.test line = true) ↔
      Truncates line ∨ Destroys line := by
  obtain ⟨⟨htable, hschema, hdatabase⟩, hcolumn, hconstraint⟩ := lettered_kinds
  rw [destructiveSql_any (p := fun regex => regex.test line = true), drop_test_iff htable,
    drop_test_iff hschema, drop_test_iff hdatabase, truncate_test_iff, alter_test_iff hcolumn,
    alter_test_iff hconstraint, destroys_iff]
  simp only [List.exists_mem_cons_iff, List.not_mem_nil, false_and, exists_false, or_false]
  exact or_left_comm

end Patterns

/-! ### Texts on lines -/

theorem findDestructiveSql_ne_nil_iff {lines : List Text} :
    findDestructiveSql lines ≠ [] ↔ ∃ line ∈ lines, Truncates line ∨ Destroys line := by
  simp only [← exists_pattern_iff, findDestructiveSql, ne_eq, List.filterMap_eq_nil_iff,
    Option.map_eq_none_iff, List.find?_eq_none, not_forall, not_not, exists_prop]

/-- A line break ends the words on both sides. -/
theorem endsFree_append_break (before front : Text) :
    Relaid.EndsFree isWord (before ++ 10 :: front) ↔ Relaid.EndsFree isWord front := by
  cases front with
  | nil => simp [Relaid.EndsFree, isWord, isLetter, isUpper, isLower, isDigit]
  | cons c front => simp [Relaid.EndsFree, List.getLast?_append, List.getLast?_cons_cons]

theorem startsFree_append_break (back after : Text) :
    Relaid.StartsFree isWord (back ++ 10 :: after) ↔ Relaid.StartsFree isWord back := by
  cases back with
  | nil => simp [Relaid.StartsFree, isWord, isLetter, isUpper, isLower, isDigit]
  | cons c back => simp [Relaid.StartsFree]

theorem alone_break_front (before front back : Text) :
    Alone (before ++ 10 :: front) back ↔ Alone front back :=
  ⟨fun h => ⟨(endsFree_append_break _ _).mp h.front, h.back⟩,
    fun h => ⟨(endsFree_append_break _ _).mpr h.front, h.back⟩⟩

theorem alone_break_back (front back after : Text) :
    Alone front (back ++ 10 :: after) ↔ Alone front back :=
  ⟨fun h => ⟨h.front, (startsFree_append_break _ _).mp h.back⟩,
    fun h => ⟨h.front, (startsFree_append_break _ _).mpr h.back⟩⟩

theorem truncates_lines_iff {text : Text} :
    (∃ line ∈ text.splitOn 10, Truncates line) ↔ Truncates text := by
  have hletters : ∀ {here : Text}, here.map foldCase = lit "truncate" → 10 ∉ here := by
    intro here hhere hmem
    exact absurd (lettered_truncate.not_space hhere 10 hmem) (by decide)
  unfold Truncates
  rw [exists_line_iff (P := TruncatesAt)]
  · refine exists₃_congr fun front here back => and_congr_right fun _ => ?_
    exact ⟨And.right, fun h => ⟨hletters h.word, h⟩⟩
  · intro before front here back
    exact ⟨fun h => ⟨h.word, (alone_break_front _ _ _).mp h.alone⟩,
      fun h => ⟨h.word, (alone_break_front _ _ _).mpr h.alone⟩⟩
  · intro front here back after
    exact ⟨fun h => ⟨h.word, (alone_break_back _ _ _).mp h.alone⟩,
      fun h => ⟨h.word, (alone_break_back _ _ _).mpr h.alone⟩⟩

/-- A destructive phrase stands on one line of the text. -/
def DestroysOnLine (text : Text) : Prop := ∃ line ∈ text.splitOn 10, Destroys line

theorem destroysOnLine_iff {text : Text} : DestroysOnLine text ↔
    ∃ front here back, text = front ++ here ++ back ∧ 10 ∉ here ∧ DestroysAt front here back := by
  unfold DestroysOnLine Destroys
  rw [exists_line_iff]
  · intro before front here back
    constructor
    · intro h
      generalize hwhole : before ++ 10 :: front = whole at h
      cases h with
      | drop hkind hdrop halone =>
        subst hwhole
        exact .drop hkind hdrop ((alone_break_front _ _ _).mp halone)
      | alter hkind halter hdrop halone halone' =>
        subst hwhole
        refine .alter hkind halter hdrop ((alone_break_front _ _ _).mp halone) ?_
        simp only [List.append_assoc, List.cons_append] at halone' ⊢
        exact (alone_break_front _ _ _).mp halone'
    · intro h
      cases h with
      | drop hkind hdrop halone => exact .drop hkind hdrop ((alone_break_front _ _ _).mpr halone)
      | alter hkind halter hdrop halone halone' =>
        refine .alter hkind halter hdrop ((alone_break_front _ _ _).mpr halone) ?_
        simp only [List.append_assoc, List.cons_append] at halone' ⊢
        exact (alone_break_front _ _ _).mpr halone'
  · intro front here back after
    constructor
    · intro h
      generalize hwhole : back ++ 10 :: after = whole at h
      cases h with
      | drop hkind hdrop halone =>
        subst hwhole
        exact .drop hkind hdrop ((alone_break_back _ _ _).mp halone)
      | alter hkind halter hdrop halone halone' =>
        subst hwhole
        refine .alter hkind halter hdrop ?_ ((alone_break_back _ _ _).mp halone')
        simp only [← List.append_assoc] at halone ⊢
        exact (alone_break_back _ _ _).mp halone
    · intro h
      cases h with
      | drop hkind hdrop halone => exact .drop hkind hdrop ((alone_break_back _ _ _).mpr halone)
      | alter hkind halter hdrop halone halone' =>
        refine .alter hkind halter hdrop ?_ ((alone_break_back _ _ _).mpr halone')
        simp only [← List.append_assoc] at halone ⊢
        exact (alone_break_back _ _ _).mpr halone

/-- **What is found.**  A phrase is found when it has no line break in it. -/
theorem found_iff {text : Text} : findDestructiveSql (text.splitOn 10) ≠ [] ↔
    Truncates text ∨ DestroysOnLine text := by
  rw [findDestructiveSql_ne_nil_iff, ← truncates_lines_iff, DestroysOnLine]
  simp only [and_or_left, exists_or]

/-! ### Other layouts -/

section Layouts

variable {text text' : Text}

theorem Alone.relaid {allows allows' : Text → Text → Prop} {front front' back back' : Text}
    (hfront : Relaid isSpace allows front front') (hback : Relaid isSpace allows' back back')
    (h : Alone front back) : Alone front' back' :=
  ⟨hfront.endsFree (fun _ => isWord_of_isSpace) h.front,
    hback.startsFree (fun _ => isWord_of_isSpace) h.back⟩

theorem Truncates.relaid {allows : Text → Text → Prop} (hrelaid : Relaid isSpace allows text text')
    (h : Truncates text) : Truncates text' := by
  obtain ⟨front, here, back, rfl, hword, halone⟩ := h
  obtain ⟨front', back', rfl, hfront, hback⟩ := hrelaid.split_word
    (lettered_truncate.ne_nil_of_map hword) (lettered_truncate.not_space hword)
  exact ⟨front', here, back', rfl, hword, halone.relaid hfront hback⟩

/-- The words of a phrase are kept. -/
theorem Phrase.relaid {first second : String} (hfirst : Lettered first) (hsecond : Lettered second)
    {front here back : Text} (h : Phrase (lit first) (lit second) here)
    (hrelaid : Relaid isSpace (fun gap gap' => 10 ∈ gap' → 10 ∈ gap)
      (front ++ here ++ back) text') :
    ∃ front' here' back', text' = front' ++ here' ++ back' ∧
      Phrase (lit first) (lit second) here' ∧
      Relaid isSpace (fun gap gap' => 10 ∈ gap' → 10 ∈ gap) front front' ∧
      Relaid isSpace (fun gap gap' => 10 ∈ gap' → 10 ∈ gap) here here' ∧
      Relaid isSpace (fun gap gap' => 10 ∈ gap' → 10 ∈ gap) back back' := by
  obtain @⟨a, gap, b, ha, hgap, hb⟩ := h
  rw [show front ++ (a ++ gap ++ b) ++ back = front ++ a ++ (gap ++ b ++ back) by simp] at hrelaid
  obtain ⟨front', rest, rfl, hfront, hrest⟩ :=
    hrelaid.split_word (hfirst.ne_nil_of_map ha) (hfirst.not_space ha)
  obtain ⟨gap', back', rfl, hgaps, hback⟩ :=
    hrest.split_word (hsecond.ne_nil_of_map hb) (hsecond.not_space hb)
  exact ⟨front', a ++ gap' ++ b, back', by simp, .intro ha (hgaps.blank hgap) hb, hfront,
    ((Relaid.refl a).append hgaps).append (.refl b), hback⟩

theorem lettered_of_drop {kind : Text} (h : kind ∈ [lit "table", lit "schema", lit "database"]) :
    ∃ word, Lettered word ∧ kind = lit word := by
  obtain ⟨⟨htable, hschema, hdatabase⟩, -⟩ := lettered_kinds
  simp only [List.mem_cons, List.not_mem_nil, or_false] at h
  rcases h with rfl | rfl | rfl
  · exact ⟨_, htable, rfl⟩
  · exact ⟨_, hschema, rfl⟩
  · exact ⟨_, hdatabase, rfl⟩

theorem lettered_of_alter {kind : Text} (h : kind ∈ [lit "column", lit "constraint"]) :
    ∃ word, Lettered word ∧ kind = lit word := by
  obtain ⟨-, hcolumn, hconstraint⟩ := lettered_kinds
  simp only [List.mem_cons, List.not_mem_nil, or_false] at h
  rcases h with rfl | rfl
  · exact ⟨_, hcolumn, rfl⟩
  · exact ⟨_, hconstraint, rfl⟩

theorem lettered_verbs : Lettered "drop" ∧ Lettered "alter" := by
  refine ⟨⟨?_, ?_⟩, ?_, ?_⟩ <;> decide

/-- A phrase on one line stays on one line when no line break is brought in. -/
theorem DestroysOnLine.relaid
    (hrelaid : Relaid isSpace (fun gap gap' => 10 ∈ gap' → 10 ∈ gap) text text')
    (h : DestroysOnLine text) : DestroysOnLine text' := by
  obtain ⟨hdropWord, halterWord⟩ := lettered_verbs
  rw [destroysOnLine_iff] at h ⊢
  obtain ⟨front, here, back, rfl, hbreak, h⟩ := h
  cases h with
  | drop hkind hdrop halone =>
    obtain ⟨word, hword, rfl⟩ := lettered_of_drop hkind
    obtain ⟨front', here', back', rfl, hdrop', hfront, hhere, hback⟩ :=
      hdrop.relaid hdropWord hword hrelaid
    exact ⟨front', here', back', rfl, hhere.not_mem hbreak,
      .drop hkind hdrop' (halone.relaid hfront hback)⟩
  | @alter altered between dropped _ _ hkind halter hdrop halone halone' =>
    obtain ⟨word, hword, rfl⟩ := lettered_of_alter hkind
    rw [show front ++ (altered ++ (between ++ dropped)) ++ back =
      front ++ altered ++ (between ++ dropped ++ back) by simp] at hrelaid
    obtain ⟨front', altered', rest, rfl, halter', hfront, haltered, hrest⟩ :=
      halter.relaid halterWord lettered_kinds.1.1 hrelaid
    obtain ⟨between', dropped', back', rfl, hdrop', hbetween, hdropped, hback⟩ :=
      hdrop.relaid hdropWord hword hrest
    refine ⟨front', altered' ++ (between' ++ dropped'), back', by simp,
      (haltered.append (hbetween.append hdropped)).not_mem hbreak,
        .alter hkind halter' hdrop' ?_ ?_⟩
    · exact halone.relaid hfront (hbetween.append (hdropped.append hback))
    · exact halone'.relaid ((hfront.append haltered).append hbetween) hback

/-- `DROP`, in any case. -/
def IsDrop (word : Text) : Prop := word.map foldCase = lit "drop"

/-- With every gap after `DROP` broken there is no phrase on one line. -/
theorem not_destroysOnLine_of_broken (hbroken : ∀ x word d y, text = x ++ word ++ d :: y →
    IsDrop word → isSpace d = true → d = 10) : ¬DestroysOnLine text := by
  have key : ∀ {kind here : Text}, Phrase (lit "drop") kind here → ∀ front back,
      text = front ++ here ++ back → 10 ∈ here := by
    rintro kind _ @⟨a, gap, b, ha, hgap, -⟩ front back htext
    obtain ⟨d, gap, rfl⟩ := List.exists_cons_of_ne_nil hgap.ne_nil
    obtain rfl := hbroken front a d (gap ++ b ++ back) (by rw [htext]; simp) ha
      (hgap.space d List.mem_cons_self)
    simp
  intro h
  obtain ⟨front, here, back, htext, hbreak, h⟩ := destroysOnLine_iff.mp h
  cases h with
  | drop hkind hdrop halone => exact hbreak (key hdrop _ _ htext)
  | @alter altered between dropped _ _ hkind halter hdrop halone halone' =>
    have hmem := key hdrop (front ++ (altered ++ between)) back (by simp [htext])
    exact hbreak (List.mem_append_right _ (List.mem_append_right _ hmem))

end Layouts

/-! ### The answers -/

/-- The file with the lines of a text added. -/
def DiffFile.addingText (file : DiffFile) (sql : Text) : DiffFile :=
  { file with addedLines := sql.splitOn 10 }

/-- The classification escalates the file's migration. -/
def EscalatesMigration [Host] (input : RiskInput) (file : DiffFile) : Prop :=
  ∃ assessment reason, classifyRisk input = some assessment ∧
    migrationEscalation input.policy.risk.escalations file = some reason ∧
    reason ∈ assessment.reasons

/-- The check reports a destructive statement in the file. -/
def ReportsMigration (diff : PullRequestDiff) (file : DiffFile) : Prop :=
  ∃ finding ∈ checkMigrations diff, finding ∈ destructiveFindings file

theorem escalatesMigration_iff [Host] {policy : LoopPolicy} {signals : List CompiledRegExp}
    (hsignals : compileSignals policy.controlPlane.policySignals = some signals)
    {diff : PullRequestDiff} {labels : List Text} {file : DiffFile} (hfile : file ∈ diff.files) :
    EscalatesMigration ⟨diff, labels, policy⟩ file ↔
      matchesAnyGlob policy.risk.escalations.destructiveMigrationGlobs file.path = true ∧
        findDestructiveSql file.addedLines ≠ [] := by
  rw [← migrationEscalation_isSome_iff]
  constructor
  · rintro ⟨_, reason, -, hreason, -⟩
    exact ⟨reason, hreason⟩
  · rintro ⟨reason, hreason⟩
    obtain ⟨controlPlane, hassess, -⟩ := assessControlPlane_spec hsignals diff
    have hfound : reason ∈ pathReasons diff policy ++ labelReasons labels ++
        escalations diff policy := by
      refine List.mem_append_right _ ?_
      simp only [escalations, List.mem_append, List.mem_filterMap]
      exact .inl (.inl (.inr ⟨file, hfile, hreason⟩))
    refine ⟨_, reason, by rw [classifyRisk, hassess]; rfl, hreason, ?_⟩
    dsimp only
    split
    · exact List.mem_append_left _ (List.mem_cons_of_mem _ hfound)
    · exact List.mem_cons_of_mem _ hfound

theorem reportsMigration_iff {diff : PullRequestDiff} {file : DiffFile}
    (hfile : file ∈ diff.files) :
    ReportsMigration diff file ↔
      matchesAnyGlob migrationGlobs file.path = true ∧ findDestructiveSql file.addedLines ≠ [] := by
  have hreported : ReportsMigration diff file ↔ destructiveFindings file ≠ [] := by
    constructor
    · rintro ⟨finding, -, hmem⟩
      exact List.ne_nil_of_mem hmem
    · intro hne
      obtain ⟨finding, hmem⟩ := List.exists_mem_of_ne_nil _ hne
      have hall : finding ∈ diff.files.flatMap destructiveFindings :=
        List.mem_flatMap.mpr ⟨file, hfile, hmem⟩
      refine ⟨finding, ?_, hmem⟩
      unfold checkMigrations
      dsimp only
      split
      · exact List.mem_append_left _ hall
      · exact hall
  rw [hreported, destructiveFindings]
  by_cases hglob : matchesAnyGlob migrationGlobs file.path = true <;> simp [hglob]

/-! ### Every layout -/

section Claim

variable (statements : Statements isSpace IsDrop) [DecidablePred statements.inside]

/-- No phrase stands in the text when each of its statements is written on one line, or `TRUNCATE`
is one of its words. -/
def Unwrapped (sql : Text) : Prop :=
  Truncates sql ∨ ¬DestroysOnLine (laid statements 32 [] sql)

theorem found_kept_iff (sql : Text) :
    (∀ sql', Rewraps statements [] sql sql' →
      (findDestructiveSql (sql'.splitOn 10) ≠ [] ↔ findDestructiveSql (sql.splitOn 10) ≠ [])) ↔
      Unwrapped statements sql := by
  simp only [found_iff]
  constructor
  · intro h
    by_contra hnot
    rw [Unwrapped, not_or, not_not] at hnot
    obtain ⟨htruncates, hjoined⟩ := hnot
    -- found when every statement is on one line, hence also with every gap broken
    have hfound := (h _ (.of_laid 32 (by decide) [] sql)).mp (.inr hjoined)
    have hbroken := h _ (.of_laid 10 (by decide) [] sql)
    rcases hbroken.mpr hfound with htruncates' | hphrase
    · exact htruncates (htruncates'.relaid
        (Rewraps.of_laid 10 (by decide) [] sql).relaid.symm)
    · refine not_destroysOnLine_of_broken (fun x word d y htext hword hd => ?_) hphrase
      exact eq_of_laid (by decide) (lettered_verbs.1.not_space hword) hword hd htext
  · rintro (htruncates | hnone) sql' hrewraps
    · exact iff_of_true (.inl (htruncates.relaid hrewraps.relaid)) (.inl htruncates)
    · have hnever : ∀ sql', Rewraps statements [] sql sql' → ¬DestroysOnLine sql' :=
        fun sql' hrewraps h => hnone (h.relaid (hrewraps.relaid_laid (by decide) (by decide)))
      simp only [hnever sql' hrewraps, hnever sql (.refl sql), or_false]
      exact ⟨fun h => h.relaid hrewraps.relaid.symm, fun h => h.relaid hrewraps.relaid⟩

/-- **When the answers do not depend on the line breaks.**  Wherever the statements of an added text
end, wrapping them otherwise changes neither answer exactly when `TRUNCATE` is among the words, or
no other destructive phrase is there once each statement stands on one line. -/
theorem wrapping_kept_iff [Host] (policy : LoopPolicy) (labels : List Text)
    (before after : List DiffFile) (file : DiffFile) (sql : Text) :
    ((∃ signals, compileSignals policy.controlPlane.policySignals = some signals) →
      matchesAnyGlob policy.risk.escalations.destructiveMigrationGlobs file.path = true →
      ((∀ sql', Rewraps statements [] sql sql' →
        (EscalatesMigration ⟨⟨before ++ file.addingText sql' :: after⟩, labels, policy⟩
          (file.addingText sql') ↔
          EscalatesMigration ⟨⟨before ++ file.addingText sql :: after⟩, labels, policy⟩
            (file.addingText sql))) ↔
        Unwrapped statements sql)) ∧
    (matchesAnyGlob migrationGlobs file.path = true →
      ((∀ sql', Rewraps statements [] sql sql' →
        (ReportsMigration ⟨before ++ file.addingText sql' :: after⟩ (file.addingText sql') ↔
          ReportsMigration ⟨before ++ file.addingText sql :: after⟩ (file.addingText sql))) ↔
        Unwrapped statements sql)) := by
  have hmem : ∀ sql, file.addingText sql ∈ before ++ file.addingText sql :: after := fun sql =>
    List.mem_append_right _ List.mem_cons_self
  constructor
  · rintro ⟨signals, hsignals⟩ hglob
    rw [← found_kept_iff]
    refine forall₂_congr fun sql' _ => ?_
    rw [escalatesMigration_iff hsignals (hmem sql'), escalatesMigration_iff hsignals (hmem sql)]
    exact iff_congr (and_iff_right hglob) (and_iff_right hglob)
  · intro hglob
    rw [← found_kept_iff]
    refine forall₂_congr fun sql' _ => ?_
    rw [reportsMigration_iff (hmem sql'), reportsMigration_iff (hmem sql)]
    exact iff_congr (and_iff_right hglob) (and_iff_right hglob)

end Claim

/-! ### A wrapped statement -/

/-- The statements that a semicolon ends. -/
def semicolons : Statements isSpace IsDrop where
  inside front := (front.reverse.dropWhile isSpace).head? ≠ some 59
  inside_append front c hc := by simp [hc]
  inside_of_unfinished front word hword := by
    have hne := lettered_verbs.1.ne_nil_of_map hword
    have hlower := lettered_verbs.1.isLower_of_map hword (List.getLast_mem hne)
    have hspace := isSpace_of_foldCase_isLower hlower
    rw [← List.dropLast_append_getLast hne]
    generalize word.getLast hne = c at hlower hspace
    simp only [List.reverse_append, List.reverse_singleton, List.cons_append, List.dropWhile_cons,
      hspace, Bool.false_eq_true, if_false, List.head?_cons, ne_eq, Option.some.injEq]
    rintro rfl
    exact absurd hlower (by decide)

instance : DecidablePred semicolons.inside :=
  fun front => inferInstanceAs (Decidable ((front.reverse.dropWhile isSpace).head? ≠ some 59))

def migrationFile : DiffFile :=
  { path := lit "packages/db/drizzle/0005_drop_sources.sql"
    status := .added
    addedLines := []
    removedLines := [] }

def migrationPolicy : LoopPolicy :=
  { samplePolicy .low none with
    risk := { (samplePolicy .low none).risk with escalations := ⟨30, 400, migrationGlobs, []⟩ } }

def dropOnOneLine : Text := lit "DROP" ++ (lit " " ++ lit "TABLE \"sources\";")
def dropOnTwoLines : Text := lit "DROP" ++ (lit "\n" ++ lit "TABLE \"sources\";")

theorem migration_glob : matchesAnyGlob migrationGlobs migrationFile.path = true := by
  decide +kernel

theorem migration_signals :
    @compileSignals asciiHost migrationPolicy.controlPlane.policySignals = some [] := rfl

theorem drop_found : (findDestructiveSql (dropOnOneLine.splitOn 10)).length = 1 ∧
    (findDestructiveSql (dropOnTwoLines.splitOn 10)).length = 0 := by decide +kernel

/-- `DROP TABLE` on one line is escalated and reported; with a line break for the blank it is
neither. -/
theorem wrapped_drop_passes :
    Rewraps semicolons [] dropOnOneLine dropOnTwoLines ∧
    (@EscalatesMigration asciiHost ⟨⟨[migrationFile.addingText dropOnOneLine]⟩, [], migrationPolicy⟩
        (migrationFile.addingText dropOnOneLine) ∧
      ReportsMigration ⟨[migrationFile.addingText dropOnOneLine]⟩
        (migrationFile.addingText dropOnOneLine)) ∧
    ¬@EscalatesMigration asciiHost ⟨⟨[migrationFile.addingText dropOnTwoLines]⟩, [],
      migrationPolicy⟩
        (migrationFile.addingText dropOnTwoLines) ∧
    ¬ReportsMigration ⟨[migrationFile.addingText dropOnTwoLines]⟩
      (migrationFile.addingText dropOnTwoLines) := by
  obtain ⟨hfound, hnone⟩ := drop_found
  have hgap : ∀ c : ℕ, isSpace c = true → Blank isSpace [c] := fun c hc => .singleton hc
  refine ⟨.append_left _ (.gap (by decide) (hgap 32 (by decide)) (hgap 10 (by decide)) (.refl _)),
    ?_⟩
  rw [@escalatesMigration_iff asciiHost _ _ migration_signals _ _ _ List.mem_cons_self,
    @escalatesMigration_iff asciiHost _ _ migration_signals _ _ _ List.mem_cons_self,
    reportsMigration_iff List.mem_cons_self, reportsMigration_iff List.mem_cons_self]
  have hsome := List.ne_nil_of_length_pos (Nat.lt_of_lt_of_eq Nat.one_pos hfound.symm)
  have hempty := List.eq_nil_of_length_eq_zero hnone
  exact ⟨⟨⟨migration_glob, hsome⟩, migration_glob, hsome⟩, fun h => h.2 hempty, fun h => h.2 hempty⟩

theorem wrapping_kept_drop :
    ((∀ sql', Rewraps semicolons [] dropOnOneLine sql' →
      (@EscalatesMigration asciiHost
          ⟨⟨[] ++ migrationFile.addingText sql' :: []⟩, [], migrationPolicy⟩
            (migrationFile.addingText sql') ↔
        @EscalatesMigration asciiHost
          ⟨⟨[] ++ migrationFile.addingText dropOnOneLine :: []⟩, [], migrationPolicy⟩
          (migrationFile.addingText dropOnOneLine))) ↔
      Unwrapped semicolons dropOnOneLine) ∧
    ((∀ sql', Rewraps semicolons [] dropOnOneLine sql' →
      (ReportsMigration ⟨[] ++ migrationFile.addingText sql' :: []⟩
        (migrationFile.addingText sql') ↔
        ReportsMigration ⟨[] ++ migrationFile.addingText dropOnOneLine :: []⟩
          (migrationFile.addingText dropOnOneLine))) ↔
      Unwrapped semicolons dropOnOneLine) :=
  have h := @wrapping_kept_iff semicolons _ asciiHost migrationPolicy [] [] [] migrationFile
    dropOnOneLine
  ⟨h.1 ⟨[], migration_signals⟩ migration_glob, h.2 migration_glob⟩

end Newsdeck.Loop

import Newsdeck.Loop.OnePass

/-!
# The line endings of a declaration

A form submits a body with a carriage return before every line feed.  The scan splits at line feeds,
and neither a heading nor an item whose text is followed by a carriage return matches; only the last
line is read as before.

* `crlf` — the body with the other line endings;
* `Open`, `stage_returned` — where the last line still belongs to a block;
* `EndsAlike` — what is declared is declared on the last line;
* `parseDependencyDeclaration_crlf` — exactly then the line endings make no difference.
-/

namespace Newsdeck.Loop

open Ecma

/-- The body with a carriage return before every line feed. -/
def crlf (body : Text) : Text := body.flatMap fun c => if c = 10 then [13, 10] else [c]

/-- The lines with a carriage return at the end of all but the last. -/
def returned (lines : List Text) : List Text :=
  lines.dropLast.map (· ++ [13]) ++ [lines.getLastD []]

theorem returned_nil_cons {lines : List Text} (h : lines ≠ []) :
    returned ([] :: lines) = [13] :: returned lines := by
  obtain ⟨line, rest, rfl⟩ := List.exists_cons_of_ne_nil h
  rfl

theorem returned_modifyHead (c : ℕ) {lines : List Text} (h : lines ≠ []) :
    returned (lines.modifyHead (List.cons c)) = (returned lines).modifyHead (List.cons c) := by
  match lines with
  | [line] => rfl
  | line :: next :: rest => rfl

/-- The carriage returns stand at the ends of the lines. -/
theorem lines_crlf (body : Text) : (crlf body).splitOn 10 = returned (body.splitOn 10) := by
  induction body with
  | nil => rfl
  | cons c body ih =>
    have hlines := List.splitOn_ne_nil 10 body
    by_cases hc : c = 10
    · have hcrlf : crlf (c :: body) = 13 :: 10 :: crlf body := by simp [crlf, hc]
      rw [hcrlf, List.splitOn_cons_eq_if_modifyHead, List.splitOn_cons_eq_if_modifyHead, ih,
        List.splitOn_cons_eq_if_modifyHead, hc]
      exact (returned_nil_cons hlines).symm
    · have hcrlf : crlf (c :: body) = c :: crlf body := by simp [crlf, hc]
      rw [hcrlf, List.splitOn_cons_eq_if_modifyHead, ih, List.splitOn_cons_eq_if_modifyHead,
        if_neg (by simpa using hc), if_neg (by simpa using hc), returned_modifyHead c hlines]

/-- The lines that have a line ending. -/
def terminated (body : Text) : List Text := (body.splitOn 10).dropLast

def lastLine (body : Text) : Text := (body.splitOn 10).getLastD []

theorem lines_eq (body : Text) : body.splitOn 10 = terminated body ++ [lastLine body] := by
  unfold terminated lastLine
  rw [List.getLastD_eq_getLast?, List.getLast?_eq_some_getLast (List.splitOn_ne_nil 10 body)]
  exact (List.dropLast_append_getLast _).symm

/-! ### The pass over returned lines -/

/-- The lines end inside a block whose heading has no text, and no line of it has one. -/
def Open (lines : List Text) : Prop :=
  ∃ before heading after, lines = before ++ heading :: after ∧ headingText heading = some [] ∧
    ∀ line ∈ after, isBlank line = true ∨ isBullet line = true

theorem open_snoc (lines : List Text) (line : Text) : Open (lines ++ [line]) ↔
    headingText line = some [] ∨ Open lines ∧ (isBlank line = true ∨ isBullet line = true) := by
  constructor
  · rintro ⟨before, heading, after, hlines, hheading, hafter⟩
    rcases List.eq_nil_or_concat after with rfl | ⟨after, last, rfl⟩
    · obtain ⟨-, hsame⟩ := List.append_inj' hlines rfl
      exact .inl ((List.cons.inj hsame).1 ▸ hheading)
    · rw [List.concat_eq_append, ← List.cons_append, ← List.append_assoc] at hlines
      obtain ⟨rfl, hsame⟩ := List.append_inj' hlines rfl
      obtain rfl := (List.cons.inj hsame).1
      exact .inr ⟨⟨before, heading, after, rfl, hheading, fun l hl => hafter l (by simp [hl])⟩,
        hafter line (by simp)⟩
  · rintro (hheading | ⟨⟨before, heading, after, rfl, hheading, hafter⟩, hline⟩)
    · exact ⟨lines, line, [], rfl, hheading, by simp⟩
    · refine ⟨before, heading, after ++ [line], by simp, hheading, fun l hl => ?_⟩
      rcases List.mem_append.mp hl with hl | hl
      · exact hafter l hl
      · exact List.mem_singleton.mp hl ▸ hline

/-- A returned line adds no text. -/
theorem readLine_returned {inside : Prop} [Decidable inside] {line text : Text}
    (h : text ∈ readLine inside (line ++ [13])) : text = [] := by
  unfold readLine at h
  rw [headingText_return] at h
  split at h
  · rename_i heading hheading
    rw [List.mem_singleton.mp h]
    exact (bare_eq_some.mp hheading).2
  · rw [itemText_return] at h
    split at h
    · split at h
      · exact List.mem_singleton.mp h
      · simp at h
    · simp at h

theorem collected_returned {texts added : List Text} (htexts : collected texts = [])
    (hadded : ∀ text ∈ added, text = []) : collected (texts ++ added) = [] := by
  rw [List.eq_nil_iff_forall_not_mem]
  intro n hn
  obtain ⟨text, htext, hnamed⟩ := mem_collected.mp hn
  rcases List.mem_append.mp htext with hold | hnew
  · have hmem := mem_collected.mpr ⟨text, hold, hnamed⟩
    rw [htexts] at hmem
    cases hmem
  · rw [hadded text hnew, show references [] = [] from rfl] at hnamed
    cases hnamed

/-- **Returned lines** name nothing, and leave the pass inside a block exactly where they are
open. -/
theorem pass_returned (lines : List Text) : collected (pass (lines.map (· ++ [13]))).texts = [] ∧
    ((pass (lines.map (· ++ [13]))).stage ≠ .outside ↔ Open lines) := by
  induction lines using List.reverseRecOn with
  | nil =>
    refine ⟨rfl, iff_of_false (fun h => h rfl) ?_⟩
    rintro ⟨before, heading, after, hlines, -⟩
    simp at hlines
  | append_singleton lines line ih =>
    obtain ⟨hnothing, hopen⟩ := ih
    rw [List.map_append, List.map_singleton, pass_snoc, open_snoc]
    generalize pass (lines.map (· ++ [13])) = reached at hnothing hopen
    constructor
    · rw [texts_step]
      exact collected_returned hnothing fun text => readLine_returned
    · obtain ⟨stage, texts⟩ := reached
      dsimp only at hnothing hopen
      have hreturn := headingText_return line
      cases hbare : bare (headingText line) with
      | some text =>
        rw [hbare] at hreturn
        rw [step_heading _ hreturn]
        exact iff_of_true (by simp) (.inl (bare_eq_some.mp hbare).1)
      | none =>
        rw [hbare] at hreturn
        have hheading : headingText line ≠ some [] := fun h => by
          rw [bare_eq_some.mpr ⟨h, rfl⟩] at hbare
          cases hbare
        rw [or_iff_right hheading, ← hopen]
        by_cases hstage : stage = .outside
        · rw [hstage, step_outside hreturn]
          simp
        · rw [and_iff_right hstage]
          by_cases hblank : isBlank line = true
          · rw [step_blank (by rw [isBlank_return, hblank]) hstage, if_neg fun h => h.2 hnothing]
            exact iff_of_true (by simp) (.inl hblank)
          · have hitem := itemText_return line
            by_cases hbullet : isBullet line = true
            · rw [if_pos hbullet] at hitem
              rw [step_item hitem hstage]
              exact iff_of_true (by simp) (.inr hbullet)
            · rw [if_neg hbullet] at hitem
              rw [step_other hreturn (by rwa [isBlank_return]) hitem]
              exact iff_of_false (by simp) (not_or.mpr ⟨hblank, hbullet⟩)

/-! ### The two readings of a body -/

theorem exists_readLine {inside : Prop} [Decidable inside] {line : Text} {n : ℕ} :
    (∃ text ∈ readLine inside line, n ∈ references text) ↔
      (∃ text, headingText line = some text ∧ n ∈ references text) ∨
        inside ∧ ∃ text, itemText line = some text ∧ n ∈ references text := by
  unfold readLine
  cases hheading : headingText line with
  | some heading =>
    have hitem : ¬ ∃ text, itemText line = some text ∧ n ∈ references text := by
      rintro ⟨text, htext, -⟩
      simp [headingText_of_itemText htext] at hheading
    simp [hitem]
  | none =>
    by_cases hinside : inside
    · simp [hinside]
    · simp [hinside]

section Readings

variable (body : Text)

/-- What is read on the terminated lines. -/
def terminatedTexts : List Text := (pass (terminated body)).texts

/-- The last line belongs to a block. -/
def Inside : Prop := (pass (terminated body)).stage ≠ .outside

instance : Decidable (Inside body) := inferInstanceAs (Decidable (_ ≠ _))

/-- The last line is a heading, or an item of a block whose other lines have no text; the number is
named on it. -/
def OnLast (n : ℕ) : Prop :=
  (∃ text, headingText (lastLine body) = some text ∧ n ∈ references text) ∨
    Open (terminated body) ∧ ∃ text, itemText (lastLine body) = some text ∧ n ∈ references text

/-- **What is declared is declared on the last line**, which has no line ending. -/
structure EndsAlike : Prop where
  /-- What is named on a line with a line ending is named on the last line too. -/
  named : ∀ text ∈ terminatedTexts body, ∀ n ∈ references text, OnLast body n
  /-- The last line names nothing as an item of another block, -/
  passed : Inside body → ¬ Open (terminated body) → ∀ text, itemText (lastLine body) = some text →
    references text = []
  /-- or as an item of a block that only the carriage returns make. -/
  made : ¬ Inside body → Open (terminated body) → ∀ text, itemText (lastLine body) = some text →
    ∀ n ∈ references text, ∃ text' ∈ terminatedTexts body, n ∈ references text'
  /-- `none` is said on the last line, if the declaration rests on it. -/
  none : (∀ n, ¬ OnLast body n) → saysNone (terminated body) = true →
    saysNone [lastLine body] = true

theorem mem_named_iff (n : ℕ) : n ∈ named body ↔
    (∃ text ∈ terminatedTexts body, n ∈ references text) ∨
      (∃ text, headingText (lastLine body) = some text ∧ n ∈ references text) ∨
      Inside body ∧ ∃ text, itemText (lastLine body) = some text ∧ n ∈ references text := by
  unfold named
  rw [mem_collected, lines_eq, pass_snoc, texts_step, ← exists_readLine]
  simp only [List.mem_append, or_and_right, exists_or]
  rfl

theorem mem_named_crlf (n : ℕ) : n ∈ named (crlf body) ↔ OnLast body n := by
  have hlines : (crlf body).splitOn 10 = (terminated body).map (· ++ [13]) ++ [lastLine body] :=
    lines_crlf body
  obtain ⟨hnothing, hopen⟩ := pass_returned (terminated body)
  have hnone : ¬ ∃ text ∈ (pass ((terminated body).map (· ++ [13]))).texts,
      n ∈ references text := by
    rw [← mem_collected, hnothing]
    exact List.not_mem_nil
  unfold named OnLast
  rw [mem_collected, hlines, pass_snoc, texts_step]
  simp only [List.mem_append, or_and_right, exists_or]
  rw [or_iff_right hnone, exists_readLine, hopen]

/-- The bodies name the same exactly when the last line names what is named. -/
theorem named_crlf_iff : (∀ n, n ∈ named (crlf body) ↔ n ∈ named body) ↔
    (∀ text ∈ terminatedTexts body, ∀ n ∈ references text, OnLast body n) ∧
    (Inside body → ¬ Open (terminated body) → ∀ text, itemText (lastLine body) = some text →
      references text = []) ∧
    (¬ Inside body → Open (terminated body) → ∀ text, itemText (lastLine body) = some text →
      ∀ n ∈ references text, ∃ text' ∈ terminatedTexts body, n ∈ references text') := by
  simp only [mem_named_crlf body, mem_named_iff body]
  have hheading {text : Text} (h : itemText (lastLine body) = some text) :
      ∀ heading, headingText (lastLine body) ≠ some heading := by
    rw [headingText_of_itemText h]
    simp
  constructor
  · intro hsame
    refine ⟨fun text htext n hn => (hsame n).mpr (.inl ⟨text, htext, hn⟩),
      fun hinside hopen text htext => ?_, fun hinside hopen text htext n hn => ?_⟩
    · rw [List.eq_nil_iff_forall_not_mem]
      intro n hn
      rcases (hsame n).mpr (.inr (.inr ⟨hinside, text, htext, hn⟩)) with
        ⟨heading, hline, -⟩ | ⟨h, -⟩
      · exact hheading htext heading hline
      · exact hopen h
    · rcases (hsame n).mp (.inr ⟨hopen, text, htext, hn⟩) with h | ⟨heading, hline, -⟩ | ⟨h, -⟩
      · exact h
      · exact absurd hline (hheading htext heading)
      · exact absurd h hinside
  · rintro ⟨hnamed, hpassed, hmade⟩ n
    constructor
    · rintro (hheading | ⟨hopen, text, htext, hn⟩)
      · exact .inr (.inl hheading)
      · by_cases hinside : Inside body
        · exact .inr (.inr ⟨hinside, text, htext, hn⟩)
        · exact .inl (hmade hinside hopen text htext n hn)
    · rintro (⟨text, htext, hn⟩ | hheading | ⟨hinside, text, htext, hn⟩)
      · exact hnamed text htext n hn
      · exact .inl hheading
      · by_cases hopen : Open (terminated body)
        · exact .inr ⟨hopen, text, htext, hn⟩
        · rw [hpassed hinside hopen text htext] at hn
          cases hn

end Readings

theorem saysNone_append (lines more : List Text) :
    saysNone (lines ++ more) = (saysNone lines || saysNone more) := by
  unfold saysNone headingTexts
  rw [List.filterMap_append, List.any_append]

theorem saysNone_returned (lines : List Text) : saysNone (lines.map (· ++ [13])) = false := by
  unfold saysNone headingTexts
  rw [List.filterMap_map, List.any_eq_false]
  intro text htext
  obtain ⟨line, -, hline⟩ := List.mem_filterMap.mp htext
  rw [Function.comp_apply, headingText_return] at hline
  rw [(bare_eq_some.mp hline).2]
  decide

/-- **Line endings.**  A body declares the same with carriage returns exactly when what it declares
is declared on its last line. -/
theorem parseDependencyDeclaration_crlf (body : Option Text) :
    parseDependencyDeclaration (body.map crlf) = parseDependencyDeclaration body ↔
      ∀ text ∈ body, EndsAlike text := by
  cases body with
  | none => simp
  | some body =>
    have hcrlf : saysNone ((crlf body).splitOn 10) = saysNone [lastLine body] := by
      have hlines : (crlf body).splitOn 10 = (terminated body).map (· ++ [13]) ++ [lastLine body] :=
        lines_crlf body
      rw [hlines, saysNone_append, saysNone_returned, Bool.false_or]
    have hlf : saysNone (body.splitOn 10) =
        (saysNone (terminated body) || saysNone [lastLine body]) := by
      rw [lines_eq, saysNone_append]
    have hnil : named (crlf body) = [] ↔ ∀ n, ¬ OnLast body n := by
      rw [List.eq_nil_iff_forall_not_mem]
      exact forall_congr' fun n => not_congr (mem_named_crlf body n)
    rw [Option.map_some, declaration_eq_iff, named_crlf_iff, hcrlf, hlf, hnil]
    simp only [Option.mem_def, Option.some.injEq, forall_eq', Bool.or_eq_true]
    constructor
    · rintro ⟨⟨hnamed, hpassed, hmade⟩, hnone⟩
      exact ⟨hnamed, hpassed, hmade, fun hnothing htold => (hnone hnothing).mpr (.inl htold)⟩
    · rintro ⟨hnamed, hpassed, hmade, hnone⟩
      exact ⟨⟨hnamed, hpassed, hmade⟩, fun hnothing => ⟨.inr, fun h => h.elim (hnone hnothing) id⟩⟩

/-- A list under a heading, as a form submits it. -/
theorem returned_list :
    parseDependencyDeclaration (some (lit "## Depends on\n\n- #12\n")) = ⟨true, [12]⟩ ∧
      crlf (lit "## Depends on\n\n- #12\n") = lit "## Depends on\r\n\r\n- #12\r\n" ∧
      parseDependencyDeclaration (some (lit "## Depends on\r\n\r\n- #12\r\n")) = ⟨false, []⟩ := by
  decide +kernel

end Newsdeck.Loop

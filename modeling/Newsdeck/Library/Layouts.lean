import Mathlib.Data.List.Basic
import Mathlib.Data.Nat.Init
import Mathlib.Tactic.Common

/-!
# Texts laid out on lines

Two texts say the same when they differ in whitespace only: where one has a gap the other has one
too.  A text is read line by line, so what stands on one line in one layout can stand on two in
another.  Which gaps may change is up to `Statements`.

* `Relaid.split` — a text cut at a symbol that is no whitespace is cut at it in every layout;
* `exists_line_iff` — what is looked for on single lines is looked for in sections without a line
  break;
* `Rewraps.relaid_laid` — a layout turns into the one with a blank for every gap;
* `eq_of_laid` — in the one with a line break for every gap an unfinished word ends its line.
-/

namespace Layouts

variable {α : Type}

/-- A stretch of whitespace. -/
structure Blank (space : α → Bool) (gap : List α) : Prop where
  ne_nil : gap ≠ []
  space : ∀ c ∈ gap, space c = true

/-! ### The same text with other whitespace -/

/-- One text as the other, `allows` saying which gap may become which. -/
inductive Relaid (space : α → Bool) (allows : List α → List α → Prop) : List α → List α → Prop
  | nil : Relaid space allows [] []
  | unit {text text'} (c : α) (rest : Relaid space allows text text') :
      Relaid space allows (c :: text) (c :: text')
  | gap {gap gap' text text'} (hgap : Blank space gap) (hgap' : Blank space gap')
      (hallows : allows gap gap') (rest : Relaid space allows text text') :
      Relaid space allows (gap ++ text) (gap' ++ text')

variable {space : α → Bool} {allows : List α → List α → Prop}
variable {text text' gap gap' x y : List α} {c brk : α}

theorem Blank.singleton (h : space c = true) : Blank space [c] :=
  ⟨List.cons_ne_nil _ _, by simpa using h⟩

namespace Relaid

theorem refl (text : List α) : Relaid space allows text text := by
  induction text with
  | nil => exact .nil
  | cons c text ih => exact .unit c ih

theorem append (h : Relaid space allows text text') (h' : Relaid space allows x y) :
    Relaid space allows (text ++ x) (text' ++ y) := by
  induction h with
  | nil => exact h'
  | unit c rest ih => exact .unit c ih
  | gap hgap hgap' hallows rest ih =>
    rw [List.append_assoc, List.append_assoc]
    exact .gap hgap hgap' hallows ih

theorem symm (h : Relaid space (fun _ _ => True) text text') :
    Relaid space (fun _ _ => True) text' text := by
  induction h with
  | nil => exact .nil
  | unit c rest ih => exact .unit c ih
  | gap hgap hgap' hallows rest ih => exact .gap hgap' hgap trivial ih

theorem eq_nil (h : Relaid space allows [] text') : text' = [] := by
  generalize htext : ([] : List α) = text at h
  cases h with
  | nil => rfl
  | unit c rest => cases htext
  | gap hgap hgap' hallows rest =>
    exact absurd (List.append_eq_nil_iff.mp htext.symm).1 hgap.ne_nil

/-- A symbol that is no whitespace stands in both texts, with the rest laid out around it. -/
theorem split (h : Relaid space allows (x ++ c :: y) text') (hc : space c = false) :
    ∃ x' y', text' = x' ++ c :: y' ∧ Relaid space allows x x' ∧ Relaid space allows y y' := by
  generalize htext : x ++ c :: y = text at h
  induction h generalizing x with
  | nil => exact absurd htext (by simp)
  | @unit text text' d rest ih =>
    cases x with
    | nil =>
      obtain ⟨rfl, rfl⟩ := List.cons.inj htext
      exact ⟨[], text', rfl, .nil, rest⟩
    | cons e x =>
      obtain ⟨rfl, htail⟩ := List.cons.inj htext
      obtain ⟨x', y', rfl, hx, hy⟩ := ih htail
      exact ⟨e :: x', y', rfl, .unit e hx, hy⟩
  | @gap gap gap' text text' hgap hgap' hallows rest ih =>
    rcases List.append_eq_append_iff.mp htext with ⟨more, rfl, hmore⟩ | ⟨more, rfl, htail⟩
    · -- the symbol would stand in the gap
      cases more with
      | nil =>
        obtain ⟨x', y', rfl, hx, hy⟩ := ih (show [] ++ c :: y = text from hmore)
        have hgap : Blank space x := by simpa using hgap
        refine ⟨gap' ++ x', y', (List.append_assoc ..).symm, ?_, hy⟩
        simpa using Relaid.gap hgap hgap' (by simpa using hallows) hx
      | cons d more =>
        obtain ⟨rfl, -⟩ := List.cons.inj hmore
        have := hgap.space c (by simp)
        rw [hc] at this
        cases this
    · obtain ⟨x', y', rfl, hx, hy⟩ := ih htail.symm
      exact ⟨gap' ++ x', y', (List.append_assoc ..).symm, .gap hgap hgap' hallows hx, hy⟩

/-- A word is kept. -/
theorem of_word_append {w : List α} (hw : ∀ c ∈ w, space c = false)
    (h : Relaid space allows (w ++ y) text') :
    ∃ y', text' = w ++ y' ∧ Relaid space allows y y' := by
  induction w generalizing text' with
  | nil => exact ⟨text', rfl, h⟩
  | cons c w ih =>
    have h : Relaid space allows ([] ++ c :: (w ++ y)) text' := h
    obtain ⟨x', rest, rfl, hx, hrest⟩ := h.split (hw c List.mem_cons_self)
    obtain rfl := hx.eq_nil
    obtain ⟨y', rfl, hy⟩ := ih (fun d hd => hw d (List.mem_cons_of_mem _ hd)) hrest
    exact ⟨y', rfl, hy⟩

/-- A word in the middle is kept. -/
theorem split_word {w : List α} (hne : w ≠ []) (hw : ∀ c ∈ w, space c = false)
    (h : Relaid space allows (x ++ w ++ y) text') :
    ∃ x' y', text' = x' ++ w ++ y' ∧ Relaid space allows x x' ∧ Relaid space allows y y' := by
  obtain ⟨c, w, rfl⟩ := List.exists_cons_of_ne_nil hne
  rw [List.append_assoc] at h
  obtain ⟨x', rest, rfl, hx, hrest⟩ := h.split (hw c List.mem_cons_self)
  obtain ⟨y', rfl, hy⟩ := hrest.of_word_append fun d hd => hw d (List.mem_cons_of_mem _ hd)
  exact ⟨x', y', by simp, hx, hy⟩

theorem ne_nil (h : Relaid space allows text text') (hne : text ≠ []) : text' ≠ [] := by
  cases h with
  | nil => exact absurd rfl hne
  | unit c rest => exact List.cons_ne_nil _ _
  | gap hgap hgap' hallows rest => exact fun hnil => hgap'.ne_nil (List.append_eq_nil_iff.mp hnil).1

theorem blank (h : Relaid space allows text text') (hblank : Blank space text) :
    Blank space text' := by
  refine ⟨h.ne_nil hblank.ne_nil, ?_⟩
  have hspace := hblank.space
  clear hblank
  induction h with
  | nil => simp
  | unit c rest ih => simpa using ⟨hspace c (by simp), ih fun d hd => hspace d (by simp [hd])⟩
  | gap hgap hgap' hallows rest ih =>
    intro c hc
    rcases List.mem_append.mp hc with hc | hc
    · exact hgap'.space c hc
    · exact ih (fun d hd => hspace d (by simp [hd])) c hc

/-- A layout that brings no line break into a gap brings none into a text. -/
theorem not_mem (h : Relaid space (fun gap gap' => brk ∈ gap' → brk ∈ gap) text text')
    (hmem : brk ∉ text) : brk ∉ text' := by
  induction h with
  | nil => exact hmem
  | unit c rest ih => simp_all
  | gap hgap hgap' hallows rest ih => simp_all

/-! ### The ends of a text -/

/-- No word reaches the text's end. -/
def EndsFree (word : α → Bool) (text : List α) : Prop := ∀ c ∈ text.getLast?, word c = false

/-- No word reaches the text's start. -/
def StartsFree (word : α → Bool) (text : List α) : Prop := ∀ c ∈ text.head?, word c = false

section Ends

variable {word : α → Bool} (hword : ∀ c, space c = true → word c = false)
include hword

theorem startsFree_of_blank (hgap : Blank space gap) (text : List α) :
    StartsFree word (gap ++ text) := by
  obtain ⟨c, gap, rfl⟩ := List.exists_cons_of_ne_nil hgap.ne_nil
  intro d hd
  obtain rfl : c = d := by simpa using hd
  exact hword _ (hgap.space _ List.mem_cons_self)

theorem endsFree_of_blank (hgap : Blank space gap) (text : List α) :
    EndsFree word (text ++ gap) := by
  intro d hd
  rw [List.getLast?_append_of_ne_nil _ hgap.ne_nil] at hd
  exact hword _ (hgap.space _ (List.mem_of_getLast? hd))

theorem startsFree (h : Relaid space allows text text') (hfree : StartsFree word text) :
    StartsFree word text' := by
  cases h with
  | nil => exact hfree
  | unit c rest => exact hfree
  | gap hgap hgap' hallows rest => exact startsFree_of_blank hword hgap' _

theorem endsFree (h : Relaid space allows text text') :
    EndsFree word text → EndsFree word text' := by
  -- with texts in front, since each step leaves one behind
  have key : ∀ front front' : List α, (EndsFree word front → EndsFree word front') →
      EndsFree word (front ++ text) → EndsFree word (front' ++ text') := by
    induction h with
    | nil =>
      intro front front' hfront hfree
      simpa using hfront (by simpa using hfree)
    | unit c rest ih =>
      intro front front' _ hfree
      rw [List.append_cons] at hfree ⊢
      exact ih _ _ (by simp [EndsFree]) hfree
    | gap hgap hgap' hallows rest ih =>
      intro front front' _ hfree
      rw [← List.append_assoc] at hfree ⊢
      exact ih _ _ (fun _ => endsFree_of_blank hword hgap' _) hfree
  exact key [] [] id

end Ends

end Relaid

/-! ### Lines -/

/-- A section without a line break stands before a line break or after it. -/
theorem section_cut {first rest front here back : List α}
    (h : first ++ brk :: rest = front ++ here ++ back) (hhere : brk ∉ here) :
    (∃ more, front = first ++ brk :: more ∧ rest = more ++ here ++ back) ∨
      ∃ more, first = front ++ here ++ more ∧ back = more ++ brk :: rest := by
  rcases List.append_eq_append_iff.mp h with ⟨more, hfront, hmore⟩ | ⟨more, hfirst, hback⟩
  · cases more with
    | nil => exact .inr ⟨[], by simpa using hfront.symm, hmore.symm⟩
    | cons c more =>
      obtain ⟨rfl, rfl⟩ := List.cons.inj hmore
      rcases List.append_eq_append_iff.mp hfront with ⟨tail, rfl, hhere'⟩ | ⟨tail, rfl, htail⟩
      · exact absurd (hhere' ▸ List.mem_append_right _ List.mem_cons_self) hhere
      · cases tail with
        | nil =>
          rw [List.nil_append] at htail
          exact absurd (htail ▸ List.mem_cons_self) hhere
        | cons d tail =>
          obtain ⟨rfl, rfl⟩ := List.cons.inj htail
          exact .inl ⟨tail, rfl, rfl⟩
  · exact .inr ⟨more, hfirst, hback⟩

/-- What is looked for on single lines, when it sees no further than to a line break. -/
theorem exists_line_iff [BEq α] [LawfulBEq α] {P : List α → List α → List α → Prop}
    (hfront : ∀ before front here back, P (before ++ brk :: front) here back ↔ P front here back)
    (hback : ∀ front here back after, P front here (back ++ brk :: after) ↔ P front here back) :
    (∃ line ∈ text.splitOn brk, ∃ front here back, line = front ++ here ++ back ∧ P front here back) ↔
      ∃ front here back, text = front ++ here ++ back ∧ brk ∉ here ∧ P front here back := by
  induction hlength : text.length using Nat.strong_induction_on generalizing text with
  | _ n ih =>
    by_cases hmem : brk ∈ text
    · obtain ⟨first, rest, rfl, hfirst⟩ := List.eq_append_cons_of_mem hmem
      have hshorter : rest.length < n := by
        rw [← hlength, List.length_append, List.length_cons]
        omega
      have hrest := @ih rest.length hshorter rest rfl
      rw [List.splitOn_append_cons_self_of_not_mem hfirst, List.exists_mem_cons_iff, hrest]
      constructor
      · rintro (⟨front, here, back, rfl, hP⟩ | ⟨front, here, back, rfl, hhere, hP⟩)
        · refine ⟨front, here, back ++ brk :: rest, by simp, ?_, (hback _ _ _ _).mpr hP⟩
          exact fun h => hfirst (by simp [h])
        · exact ⟨first ++ brk :: front, here, back, by simp, hhere, (hfront _ _ _ _).mpr hP⟩
      · rintro ⟨front, here, back, hsplit, hhere, hP⟩
        rcases section_cut hsplit hhere with ⟨more, rfl, rfl⟩ | ⟨more, rfl, rfl⟩
        · exact .inr ⟨more, here, back, rfl, hhere, (hfront _ _ _ _).mp hP⟩
        · exact .inl ⟨front, here, more, rfl, (hback _ _ _ _).mp hP⟩
    · rw [List.splitOn_eq_singleton hmem]
      simp only [List.mem_singleton, exists_eq_left]
      refine exists₃_congr fun front here back => ?_
      constructor
      · rintro ⟨rfl, hP⟩
        exact ⟨rfl, fun h => hmem (by simp [h]), hP⟩
      · rintro ⟨rfl, -, hP⟩
        exact ⟨rfl, hP⟩

/-! ### Which gaps may change -/

/-- Where statements end: whether whitespace after a text stands inside one.  All of a gap does or
none of it, and no statement ends with one of the words that call for more. -/
structure Statements (space : α → Bool) (unfinished : List α → Prop) where
  inside : List α → Prop
  inside_append : ∀ front c, space c = true → (inside (front ++ [c]) ↔ inside front)
  inside_of_unfinished : ∀ front word, unfinished word → inside (front ++ word)

variable {unfinished : List α → Prop} (statements : Statements space unfinished)

/-- One text as the other, with other whitespace inside the statements only.  The first argument is
the text before both. -/
inductive Rewraps : List α → List α → List α → Prop
  | nil {front} : Rewraps front [] []
  | unit {front text text'} (c : α) (rest : Rewraps (front ++ [c]) text text') :
      Rewraps front (c :: text) (c :: text')
  | gap {front gap gap' text text'} (hinside : statements.inside front) (hgap : Blank space gap)
      (hgap' : Blank space gap') (rest : Rewraps (front ++ gap) text text') :
      Rewraps front (gap ++ text) (gap' ++ text')

/-- The text with one symbol for the whitespace inside its statements. -/
def laid [DecidablePred statements.inside] (symbol : α) : List α → List α → List α
  | _, [] => []
  | front, c :: text =>
      (if space c = true ∧ statements.inside front then symbol else c) ::
        laid symbol (front ++ [c]) text

variable {statements} {front : List α}

theorem laid_append_blank [DecidablePred statements.inside] (hinside : statements.inside front)
    (hgap : ∀ c ∈ gap, space c = true) (symbol : α) (text : List α) :
    laid statements symbol front (gap ++ text) =
      gap.map (fun _ => symbol) ++ laid statements symbol (front ++ gap) text := by
  induction gap generalizing front with
  | nil => rw [List.append_nil, List.nil_append, List.map_nil, List.nil_append]
  | cons c gap ih =>
    have hc : space c = true := hgap c List.mem_cons_self
    have hrest := ih ((statements.inside_append front c hc).mpr hinside)
      fun d hd => hgap d (List.mem_cons_of_mem _ hd)
    rw [List.cons_append, laid, if_pos ⟨hc, hinside⟩, hrest, List.append_assoc]
    rfl

section Laid

variable [DecidablePred statements.inside] {symbol : α}

theorem laid_eq_append {x' y' : List α} (h : laid statements symbol front text = x' ++ y') :
    ∃ x y, text = x ++ y ∧ laid statements symbol front x = x' ∧
      laid statements symbol (front ++ x) y = y' := by
  induction x' generalizing front text with
  | nil => exact ⟨[], text, rfl, rfl, by simpa using h⟩
  | cons c x' ih =>
    cases text with
    | nil => simp [laid] at h
    | cons a text =>
      obtain ⟨hhead, htail⟩ := List.cons.inj h
      obtain ⟨x, y, rfl, hx, hy⟩ := ih htail
      refine ⟨a :: x, y, rfl, ?_, by simpa using hy⟩
      rw [laid, hx, hhead]

theorem eq_of_laid_eq_word (hsymbol : space symbol = true) {word : List α}
    (hword : ∀ c ∈ word, space c = false) (h : laid statements symbol front text = word) :
    text = word := by
  induction word generalizing front text with
  | nil =>
    cases text with
    | nil => rfl
    | cons a text => simp [laid] at h
  | cons c word ih =>
    cases text with
    | nil => simp [laid] at h
    | cons a text =>
      obtain ⟨hhead, htail⟩ := List.cons.inj h
      have hc := hword c List.mem_cons_self
      split at hhead
      · rw [← hhead, hsymbol] at hc
        cases hc
      · rw [hhead, ih (fun d hd => hword d (List.mem_cons_of_mem _ hd)) htail]

/-- After an unfinished word all whitespace is the symbol. -/
theorem eq_of_laid {word : List α} {d : α} (hsymbol : space symbol = true)
    (hword : ∀ c ∈ word, space c = false) (hunfinished : unfinished word) (hd : space d = true)
    (h : laid statements symbol front text = x ++ word ++ d :: y) : d = symbol := by
  obtain ⟨before, after, rfl, hbefore, hafter⟩ := laid_eq_append h
  obtain ⟨x₀, word₀, rfl, -, hlaid⟩ := laid_eq_append hbefore
  obtain rfl := eq_of_laid_eq_word hsymbol hword hlaid
  cases after with
  | nil => simp [laid] at hafter
  | cons a after =>
    obtain ⟨hhead, -⟩ := List.cons.inj hafter
    split at hhead
    · exact hhead.symm
    · rename_i hkept
      subst hhead
      rw [← List.append_assoc] at hkept
      exact absurd ⟨hd, statements.inside_of_unfinished _ _ hunfinished⟩ hkept

end Laid

namespace Rewraps

theorem refl (text : List α) : Rewraps statements front text text := by
  induction text generalizing front with
  | nil => exact .nil
  | cons c text ih => exact .unit c ih

theorem append_left (x : List α) (h : Rewraps statements (front ++ x) text text') :
    Rewraps statements front (x ++ text) (x ++ text') := by
  induction x generalizing front with
  | nil => simpa using h
  | cons c x ih => exact .unit c (ih (by simpa using h))

theorem relaid (h : Rewraps statements front text text') :
    Relaid space (fun _ _ => True) text text' := by
  induction h with
  | nil => exact .nil
  | unit c rest ih => exact .unit c ih
  | gap hinside hgap hgap' rest ih => exact .gap hgap hgap' trivial ih

variable [DecidablePred statements.inside] {symbol : α}

theorem of_laid (symbol : α) (hsymbol : space symbol = true) (front text : List α) :
    Rewraps statements front text (laid statements symbol front text) := by
  induction text generalizing front with
  | nil => exact .nil
  | cons c text ih =>
    rw [laid]
    split
    · rename_i h
      exact .gap h.2 (.singleton h.1) (.singleton hsymbol) (ih _)
    · exact .unit c (ih _)

/-- Every layout turns into the one with a blank for each gap, and no line break is brought in. -/
theorem relaid_laid (hsymbol : space symbol = true) (hne : symbol ≠ brk)
    (h : Rewraps statements front text text') :
    Relaid space (fun gap gap' => brk ∈ gap' → brk ∈ gap) text'
      (laid statements symbol front text) := by
  induction h with
  | nil => exact .nil
  | @unit front text text' c rest ih =>
    rw [laid]
    split
    · rename_i h
      refine .gap (.singleton h.1 : Blank space [c]) (.singleton hsymbol) ?_ ih
      exact fun hmem => absurd (List.mem_singleton.mp hmem).symm hne
    · exact .unit c ih
  | @gap front gap gap' text text' hinside hgap hgap' rest ih =>
    rw [laid_append_blank hinside hgap.space]
    refine .gap hgap' ⟨by simpa using hgap.ne_nil, ?_⟩ ?_ ih
    · intro c hc
      obtain ⟨_, -, rfl⟩ := List.mem_map.mp hc
      exact hsymbol
    · intro hmem
      obtain ⟨_, -, heq⟩ := List.mem_map.mp hmem
      exact absurd heq hne

end Rewraps

end Layouts

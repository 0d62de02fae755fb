import Mathlib.Data.List.TakeWhile
import Newsdeck.Ecma.Reading
import Newsdeck.Loop.Dependencies

/-!
# The lines of a declaration

What the expressions of a declaration find on one line.

* `headingText`, `itemText` — what a heading and a list item capture, as functions of the line;
* `headingText_of_itemText`, `headingText_of_blank` — a line is only one of the three;
* `headingText_return`, `itemText_return` — with a carriage return at its end, a line captures
  nothing but the empty text.
-/

namespace Newsdeck.Loop

open Ecma Ecma.Regex

/-! ### Headings -/

/-- The text is on one line. -/
def restText (text : Text) : Option Text :=
  if text.all fun c => !isLineTerminator c then some text else none

/-- `\s*(.*)$`. -/
def indented (text : Text) : Option Text := restText (text.dropWhile isSpace)

/-- `:?\s*(.*)$`. -/
def afterColon : Text → Option Text
  | 58 :: text => indented text
  | text => indented text

/-- `\s+on\s*:?\s*(.*)$`. -/
def afterDepends : Text → Option Text
  | [] => none
  | c :: text =>
      if isSpace c then
        (afterWord (lit "on") (text.dropWhile isSpace)).bind fun text =>
          afterColon (text.dropWhile isSpace)
      else none

/-- `depends\s+on\s*:?\s*(.*)$`. -/
def afterMarks (text : Text) : Option Text := (afterWord (lit "depends") text).bind afterDepends

/-- What is left of at most so many marks, and the rest of the heading. -/
def afterHashes : ℕ → Text → Option Text
  | marks + 1, 35 :: text => afterHashes marks text
  | _, text => afterMarks (text.dropWhile isSpace)

/-- `(?:#{1,6}\s*)?depends\s+on\s*:?\s*(.*)$`. -/
def markedText : Text → Option Text
  | 35 :: text => afterHashes 5 text
  | text => afterMarks text

/-- What a heading captures. -/
def headingText (line : Text) : Option Text := markedText (line.dropWhile isSpace)

theorem isSpace_letter {c : ℕ} (h : isLetter c = true) : isSpace c = false := by
  unfold isLetter isUpper isLower at h
  unfold isSpace
  simp only [Bool.or_eq_true, Bool.and_eq_true, decide_eq_true_eq] at h
  simp only [Bool.or_eq_false_iff, Bool.and_eq_false_iff, decide_eq_false_iff_not]
  omega

theorem isLineTerminator_letter {c : ℕ} (h : isLetter c = true) : isLineTerminator c = false := by
  unfold isLetter isUpper isLower at h
  unfold isLineTerminator
  simp only [Bool.or_eq_true, Bool.and_eq_true, decide_eq_true_eq] at h
  simp only [Bool.or_eq_false_iff, decide_eq_false_iff_not]
  omega

theorem ignoreCase_space : space.ignoreCase = space := ignoreCase_cls false fun _ => isSpace_letter

theorem ignoreCase_dot : dot.ignoreCase = dot :=
  ignoreCase_cls true fun _ h => by rw [isLineTerminator_letter h]; rfl

theorem ignoreCase_mark (mark : ℕ) (h : isLetter mark ≠ true) :
    (Regex.cls fun c => decide (c = mark)).ignoreCase = .cls fun c => decide (c = mark) :=
  ignoreCase_cls false fun _ hc => decide_eq_false fun heq => h (heq ▸ hc)

/-- `heading`, with the flag worked in. -/
theorem heading_eq : heading = .seq .bol (.seq (.many space)
    (.seq (.alt (.seq (.seq (str "#") (.upTo 5 (str "#"))) (.many space)) .empty)
      (.seq (str "depends").ignoreCase (.seq (.seq space (.many space)) (.seq (str "on").ignoreCase
        (.seq (.many space) (.seq (.alt (str ":") .empty) (.seq (.many space)
          (.seq (.group 1 (.many dot)) .eol))))))))) := by
  have hhash : (str "#").ignoreCase = str "#" :=
    congrArg (fun r => Regex.seq r .empty) (ignoreCase_mark 35 (by decide))
  have hcolon : (str ":").ignoreCase = str ":" :=
    congrArg (fun r => Regex.seq r .empty) (ignoreCase_mark 58 (by decide))
  have hmany : (Regex.many space).ignoreCase = .many space := by
    unfold Regex.many ignoreCase
    rw [ignoreCase_space]
  unfold heading
  simp only [cat, ignoreCase, opt, Loop.spaces, many1, upTo, hhash, hcolon, ignoreCase_space,
    ignoreCase_dot, many]

theorem not_isLetter_of_isSpace {c : ℕ} (h : isSpace c = true) : isLetter c ≠ true :=
  fun hletter => by simp [isSpace_letter hletter] at h

theorem restText_cons_of_none {text : Text} (h : restText text = none) (c : ℕ) :
    restText (c :: text) = none := by
  unfold restText at h ⊢
  rw [if_neg]
  intro hall
  rw [List.all_cons, Bool.and_eq_true] at hall
  rw [if_pos hall.2] at h
  cases h

theorem indented_of_isSpace {c : ℕ} (h : isSpace c = true) (text : Text) :
    indented (c :: text) = indented text := by
  unfold indented
  rw [List.dropWhile_cons_of_pos h]

theorem indented_cons_of_none {text : Text} (h : indented text = none) (c : ℕ) :
    indented (c :: text) = none := by
  by_cases hc : isSpace c = true
  · rwa [indented_of_isSpace hc]
  · unfold indented
    rw [List.dropWhile_cons_of_neg hc]
    apply restText_cons_of_none
    unfold indented at h
    clear hc
    induction text with
    | nil => exact h
    | cons d text ih =>
      by_cases hd : isSpace d = true
      · rw [List.dropWhile_cons_of_pos hd] at h
        exact restText_cons_of_none (ih h) d
      · rwa [List.dropWhile_cons_of_neg hd] at h

theorem afterColon_cons (c : ℕ) (text : Text) :
    afterColon (c :: text) = if c = 58 then indented text else indented (c :: text) := by
  unfold afterColon
  split
  · rename_i heq
    rw [if_pos (List.cons.inj heq).1, (List.cons.inj heq).2]
  · rename_i hne
    rw [if_neg fun hc => hne text (by rw [hc])]

theorem afterHashes_cons (marks c : ℕ) (text : Text) : afterHashes (marks + 1) (c :: text) =
    if c = 35 then afterHashes marks text else afterMarks ((c :: text).dropWhile isSpace) := by
  rw [afterHashes.eq_def]
  split
  · rename_i hmarks heq
    rw [if_pos (List.cons.inj heq).1, (List.cons.inj heq).2, Nat.succ.inj hmarks]
  · rename_i hne
    rw [if_neg fun hc => hne marks text rfl (by rw [hc])]

theorem afterMarks_of_not_letter {c : ℕ} (h : isLetter c ≠ true) (text : Text) :
    afterMarks (c :: text) = none := by
  unfold afterMarks
  rw [show lit "depends" = 100 :: lit "epends" from rfl, afterWord_of_not_letter (by decide) h]
  rfl

/-- `(.*)$`. -/
def restOfLine : Cont ℕ := (Regex.group 1 (.many dot)).run (Regex.eol.run done)

theorem reads_restOfLine : Reads 1 restOfLine restText := reads_rest 1 _

theorem reads_indented : Reads 1 ((Regex.many space).run restOfLine) indented :=
  reads_many reads_restOfLine fun c _ _ h => restText_cons_of_none h c

theorem reads_afterColon :
    Reads 1 ((Regex.alt (str ":") .empty).run ((Regex.many space).run restOfLine)) afterColon := by
  have hempty : Reads 1 (Regex.empty.run ((Regex.many space).run restOfLine)) indented :=
    reads_indented
  refine (reads_opt hempty reads_indented fun text h => indented_cons_of_none h 58).congr
    fun text => ?_
  cases text with
  | nil => rfl
  | cons c text => exact (afterColon_cons c text).symm

theorem reads_afterOn : Reads 1 ((Regex.many space).run ((Regex.alt (str ":") .empty).run
    ((Regex.many space).run restOfLine))) fun text => afterColon (text.dropWhile isSpace) := by
  refine reads_many reads_afterColon fun c text hc h => ?_
  have hne : c ≠ 58 := by
    rintro rfl
    exact absurd hc (by decide)
  rw [afterColon_cons, if_neg hne, indented_of_isSpace hc]
  cases text with
  | nil => exact h
  | cons d text =>
    rw [afterColon_cons] at h
    split at h
    · exact indented_cons_of_none h d
    · exact h

theorem reads_afterDepends : Reads 1 ((Regex.seq space (.many space)).run ((str "on").ignoreCase.run
    ((Regex.many space).run ((Regex.alt (str ":") .empty).run
      ((Regex.many space).run restOfLine)))))
    afterDepends := by
  refine (reads_cls (reads_many (reads_word reads_afterOn (lit "on")) fun c text hc _ => ?_)).congr
    fun text => ?_
  · rw [show lit "on" = 111 :: lit "n" from rfl,
      afterWord_of_not_letter (by decide) (not_isLetter_of_isSpace hc)]
    rfl
  · cases text <;> rfl

theorem reads_afterMarks : Reads 1
    ((str "depends").ignoreCase.run ((Regex.seq space (.many space)).run
    ((str "on").ignoreCase.run ((Regex.many space).run ((Regex.alt (str ":") .empty).run
      ((Regex.many space).run restOfLine)))))) afterMarks :=
  reads_word reads_afterDepends (lit "depends")

/-- A run of marks, then the rest of the heading. -/
theorem reads_afterHashes {k : Cont ℕ} (h : Reads 1 k afterMarks) (marks : ℕ) :
    Reads 1 ((Regex.upTo marks (str "#")).run ((Regex.many space).run k)) (afterHashes marks) := by
  have hspaces : Reads 1 ((Regex.many space).run k)
      fun text => afterMarks (text.dropWhile isSpace) :=
    reads_many h fun c text hc _ => afterMarks_of_not_letter (not_isLetter_of_isSpace hc) text
  induction marks with
  | zero =>
    refine hspaces.congr fun text => ?_
    rw [afterHashes.eq_def]
  | succ marks ih =>
    have hmark : Reads 1 ((Regex.seq .empty (.upTo marks (str "#"))).run ((Regex.many space).run k))
        (afterHashes marks) := ih
    refine (reads_opt hmark hspaces fun text _ => ?_).congr fun text => ?_
    · exact afterMarks_of_not_letter (by decide) text
    · cases text with
      | nil => rfl
      | cons c text => exact (afterHashes_cons marks c text).symm

theorem markedText_cons (c : ℕ) (text : Text) :
    markedText (c :: text) = if c = 35 then afterHashes 5 text else afterMarks (c :: text) := by
  unfold markedText
  split
  · rename_i heq
    rw [if_pos (List.cons.inj heq).1, (List.cons.inj heq).2]
  · rename_i hne
    rw [if_neg fun hc => hne text (by rw [hc])]

theorem markedText_of_isSpace {c : ℕ} (h : isSpace c = true) (text : Text) :
    markedText (c :: text) = none := by
  have hne : c ≠ 35 := by
    rintro rfl
    exact absurd h (by decide)
  rw [markedText_cons, if_neg hne, afterMarks_of_not_letter (not_isLetter_of_isSpace h)]

/-- What a heading captures is what its reading gives. -/
theorem heading_capture (line : Text) : heading.capture 1 line = headingText line := by
  rw [heading_eq]
  refine capture_of_reads (f := headingText) ?_ line
  refine reads_many (f := markedText) ?_ fun c text hc _ => markedText_of_isSpace hc text
  have hhashes : Reads 1 ((Regex.seq .empty (.seq (.upTo 5 (str "#")) (.many space))).run _)
      (afterHashes 5) :=
    reads_afterHashes reads_afterMarks 5
  refine (reads_opt hhashes reads_afterMarks fun text _ =>
    afterMarks_of_not_letter (by decide) text).congr fun text => ?_
  cases text with
  | nil => rfl
  | cons c text => exact (markedText_cons c text).symm

/-! ### List items -/

/-- `[-*]\s+(.*)$`. -/
def bulletText : Text → Option Text
  | c :: d :: text => if c ∈ lit "-*" ∧ isSpace d then indented text else none
  | _ => none

/-- What a list item captures. -/
def itemText (line : Text) : Option Text := bulletText (line.dropWhile isSpace)

theorem not_isSpace_of_bullet {c : ℕ} (h : c ∈ lit "-*") : isSpace c = false ∧ isLetter c = false ∧
    c ≠ 35 := by
  rw [show lit "-*" = [45, 42] from rfl] at h
  rcases List.mem_pair.mp h with rfl | rfl <;> decide

theorem bulletText_of_isSpace {c : ℕ} (h : isSpace c = true) (text : Text) :
    bulletText (c :: text) = none := by
  cases text with
  | nil => rfl
  | cons d text =>
    refine if_neg fun hbullet => ?_
    rw [(not_isSpace_of_bullet hbullet.1).1] at h
    cases h

theorem reads_listItem : Reads 1 ((Regex.seq (.many space) (.seq (chars "-*") (.seq Loop.spaces
    (.seq (.group 1 (.many dot)) .eol)))).run done) itemText := by
  refine reads_many (f := bulletText) ?_ fun c text hc _ => bulletText_of_isSpace hc text
  refine (reads_cls (reads_cls reads_indented)).congr fun text => ?_
  match text with
  | [] => rfl
  | [c] => simp [bulletText]
  | c :: d :: text =>
    show (if decide (c ∈ lit "-*") = true then if isSpace d = true then indented text else none
      else none) =
      if c ∈ lit "-*" ∧ isSpace d then indented text else none
    by_cases hc : c ∈ lit "-*"
    · simp [hc]
    · simp [hc]

theorem listItem_capture (line : Text) : listItem.capture 1 line = itemText line :=
  capture_of_reads reads_listItem line

theorem listItem_test (line : Text) : listItem.test line = (itemText line).isSome :=
  test_of_reads reads_listItem line

/-! ### One of the three -/

/-- There is nothing on the line. -/
def isBlank (line : Text) : Bool := (trim line).length = 0

theorem isBlank_iff (line : Text) : isBlank line = true ↔ line.dropWhile isSpace = [] := by
  unfold isBlank trim
  rw [decide_eq_true_iff, List.length_eq_zero_iff, List.reverse_eq_nil_iff,
    List.dropWhile_eq_nil_iff]
  constructor
  · intro h
    cases hdrop : line.dropWhile isSpace with
    | nil => rfl
    | cons c rest =>
      have hstop := List.head?_dropWhile_not isSpace line
      rw [hdrop] at hstop h
      have hc := h c (by simp)
      simp [hc] at hstop
  · intro h
    simp [h]

/-- A list item is no heading. -/
theorem headingText_of_itemText {line text : Text} (h : itemText line = some text) :
    headingText line = none := by
  unfold itemText at h
  unfold headingText
  match hdrop : line.dropWhile isSpace with
  | [] => rw [hdrop] at h; cases h
  | [c] => rw [hdrop] at h; cases h
  | c :: d :: rest =>
    rw [hdrop] at h
    have hbullet : c ∈ lit "-*" := by
      by_contra hnot
      rw [bulletText, if_neg fun hboth => hnot hboth.1] at h
      cases h
    obtain ⟨-, hletter, hne⟩ := not_isSpace_of_bullet hbullet
    rw [markedText_cons, if_neg hne, afterMarks_of_not_letter (by simp [hletter])]

theorem headingText_of_isBlank {line : Text} (h : isBlank line = true) :
    headingText line = none := by
  unfold headingText
  rw [(isBlank_iff line).mp h]
  rfl

theorem itemText_of_isBlank {line : Text} (h : isBlank line = true) : itemText line = none := by
  unfold itemText
  rw [(isBlank_iff line).mp h]
  rfl

/-! ### A carriage return at the end -/

/-- What is captured, if it is the empty text. -/
def bare (captured : Option Text) : Option Text := captured.filter fun text => text.length = 0

theorem bare_eq_some {captured : Option Text} {text : Text} :
    bare captured = some text ↔ captured = some [] ∧ text = [] := by
  unfold bare
  rw [Option.filter_eq_some_iff, decide_eq_true_iff, List.length_eq_zero_iff]
  constructor
  · rintro ⟨hcaptured, rfl⟩
    exact ⟨hcaptured, rfl⟩
  · rintro ⟨hcaptured, rfl⟩
    exact ⟨hcaptured, rfl⟩

theorem dropWhile_return (text : Text) : (text ++ [13]).dropWhile isSpace =
    if text.dropWhile isSpace = [] then [] else text.dropWhile isSpace ++ [13] := by
  rw [List.dropWhile_append]
  by_cases h : text.dropWhile isSpace = []
  · rw [if_pos h, h]
    rfl
  · rw [if_neg h, if_neg (by simpa using h)]

theorem indented_return (text : Text) : indented (text ++ [13]) = bare (indented text) := by
  unfold indented
  rw [dropWhile_return]
  split
  · rename_i h
    rw [h]
    rfl
  · rename_i h
    have hnone : restText (text.dropWhile isSpace ++ [13]) = none := by
      unfold restText
      rw [if_neg (by simp [isLineTerminator])]
    rw [hnone]
    unfold restText
    split
    · simp [bare, Option.filter, h]
    · rfl

/-- A reading that gives nothing but the empty text where a carriage return follows does so below
spaces too. -/
theorem dropWhile_read {f : Text → Option Text} (hf : ∀ text, f (text ++ [13]) = bare (f text))
    (hnil : f [] = bare (f [])) (text : Text) :
    f ((text ++ [13]).dropWhile isSpace) = bare (f (text.dropWhile isSpace)) := by
  rw [dropWhile_return]
  split
  · rename_i h
    rw [h]
    exact hnil
  · exact hf _

theorem afterWord_return {word : Text} (hword : ∀ c ∈ word, isLetter c = true) (text : Text) :
    afterWord word (text ++ [13]) = (afterWord word text).map fun rest => rest ++ [13] := by
  induction word generalizing text with
  | nil => rfl
  | cons c word ih =>
    cases text with
    | nil => exact afterWord_of_not_letter (hword c (by simp)) (by decide) word []
    | cons d text =>
      show (if _ then afterWord word (text ++ [13]) else none) = Option.map _ (if _ then _ else _)
      split
      · exact ih (fun c hc => hword c (by simp [hc])) text
      · rfl

theorem bind_return {word : Text} (hword : ∀ c ∈ word, isLetter c = true) {f : Text → Option Text}
    (hf : ∀ text, f (text ++ [13]) = bare (f text)) (text : Text) :
    (afterWord word (text ++ [13])).bind f = bare ((afterWord word text).bind f) := by
  rw [afterWord_return hword]
  cases afterWord word text with
  | none => rfl
  | some rest => exact hf rest

theorem afterColon_return (text : Text) : afterColon (text ++ [13]) = bare (afterColon text) := by
  cases text with
  | nil => rfl
  | cons c text =>
    rw [List.cons_append, afterColon_cons, afterColon_cons]
    split
    · exact indented_return text
    · exact indented_return (c :: text)

theorem afterDepends_return (text : Text) : afterDepends (text ++ [13]) = bare
    (afterDepends text) := by
  cases text with
  | nil => rfl
  | cons c text =>
    show (if _ then _ else none) = bare (if _ then _ else none)
    split
    · exact dropWhile_read (f := fun text => (afterWord (lit "on") text).bind fun text =>
        afterColon (text.dropWhile isSpace))
        (bind_return (by decide) (dropWhile_read afterColon_return rfl)) rfl text
    · rfl

theorem afterMarks_return (text : Text) : afterMarks (text ++ [13]) = bare (afterMarks text) :=
  bind_return (by decide) afterDepends_return text

theorem afterHashes_return (marks : ℕ) (text : Text) :
    afterHashes marks (text ++ [13]) = bare (afterHashes marks text) := by
  induction marks generalizing text with
  | zero =>
    rw [afterHashes.eq_def, afterHashes.eq_def]
    exact dropWhile_read afterMarks_return rfl text
  | succ marks ih =>
    cases text with
    | nil => rfl
    | cons c text =>
      rw [List.cons_append, afterHashes_cons, afterHashes_cons]
      split
      · exact ih text
      · exact dropWhile_read afterMarks_return rfl (c :: text)

/-- **A heading** that ends in a carriage return is one without a text. -/
theorem headingText_return (line : Text) : headingText (line ++ [13]) = bare
    (headingText line) := by
  refine dropWhile_read (fun text => ?_) rfl line
  cases text with
  | nil => rfl
  | cons c text =>
    rw [List.cons_append, markedText_cons, markedText_cons]
    split
    · exact afterHashes_return 5 text
    · exact afterMarks_return (c :: text)

/-- The line is only a bullet. -/
def isBullet (line : Text) : Bool :=
  match line.dropWhile isSpace with
  | [] => false
  | c :: rest => c ∈ lit "-*" && rest.all isSpace

theorem bare_indented (text : Text) :
    bare (indented text) = if text.all isSpace then some [] else none := by
  unfold indented
  cases hdrop : text.dropWhile isSpace with
  | nil =>
    rw [if_pos (List.all_eq_true.mpr (List.dropWhile_eq_nil_iff.mp hdrop))]
    rfl
  | cons c rest =>
    rw [if_neg fun hall => ?_]
    · unfold restText
      split <;> rfl
    · rw [List.dropWhile_eq_nil_iff.mpr (List.all_eq_true.mp hall)] at hdrop
      cases hdrop

/-- **An item** that ends in a carriage return is one without a text. -/
theorem itemText_return (line : Text) : itemText (line ++ [13]) = if isBullet line then some
    [] else none := by
  unfold itemText isBullet
  rw [dropWhile_return]
  match line.dropWhile isSpace with
  | [] => rfl
  | [c] =>
    show (if c ∈ lit "-*" ∧ isSpace 13 then indented [] else none) = _
    by_cases hc : c ∈ lit "-*"
    · rw [if_pos ⟨hc, by decide⟩]
      simp [hc, indented, restText]
    · simp [hc]
  | c :: d :: rest =>
    show (if c ∈ lit "-*" ∧ isSpace d then indented (rest ++ [13]) else none) = _
    rw [indented_return, bare_indented]
    by_cases hc : c ∈ lit "-*"
    · by_cases hd : isSpace d = true
      · simp [hc, hd]
      · simp [hd]
    · simp [hc]

theorem isBlank_return (line : Text) : isBlank (line ++ [13]) = isBlank line := by
  rw [Bool.eq_iff_iff, isBlank_iff, isBlank_iff, dropWhile_return]
  split
  · rename_i h
    simp [h]
  · rename_i h
    simp [h]

end Newsdeck.Loop

import Newsdeck.Git.Unified
import Newsdeck.Library.Framing
import Newsdeck.Loop.Diff

/-!
# Reading a rendered diff

What `parseUnifiedDiff` makes of the lines that git prints for a list of changes.

* `fileHeader_capture` — the path a header line is read as: what follows the first ` b/` behind the
  first unit of the old path;
* `foldl_parseFileLine_body` — what the lines behind the header do: a content line is lost when it
  starts like the two lines above the hunks;
* `lines_kept_iff` — every line of every file comes through exactly when none is lost that way.
-/

namespace Newsdeck.Loop

open Ecma Git

/-! ### Prefixes -/

/-- Two texts of which neither starts the other. -/
def Apart (s t : Text) : Prop := ¬ s <+: t ∧ ¬ t <+: s

instance (s t : Text) : Decidable (Apart s t) := inferInstanceAs (Decidable (_ ∧ _))

theorem Apart.not_prefix_append {s t : Text} (h : Apart s t) (rest : Text) : ¬ s <+: t ++ rest :=
  fun hpre => (List.prefix_or_prefix_of_prefix hpre (List.prefix_append t rest)).elim h.1 h.2

/-! ### Header lines -/

/-- ` b/` stands in the text, not at its start. -/
def Separated (p : Text) : Prop := ∃ u v, u ≠ [] ∧ p = u ++ (lit " b/" ++ v)

/-- No line break of any kind. -/
def OneLine (t : Text) : Prop := ∀ c ∈ t, isLineTerminator c = false

theorem OneLine.append {s t : Text} (hs : OneLine s) (ht : OneLine t) : OneLine (s ++ t) := by
  intro c hc
  rcases List.mem_append.mp hc with hc | hc
  · exact hs c hc
  · exact ht c hc

theorem OneLine.left {s t : Text} (h : OneLine (s ++ t)) : OneLine s :=
  fun c hc => h c (List.mem_append_left t hc)

theorem OneLine.right {s t : Text} (h : OneLine (s ++ t)) : OneLine t :=
  fun c hc => h c (List.mem_append_right s hc)

theorem oneLine_of_unquoted {p : Path} (h : Unquoted p) : OneLine p.1 := by
  intro c hc
  have hplain := h c hc
  simp only [mustQuote, Bool.or_eq_false_iff, decide_eq_false_iff_not] at hplain
  simp only [isLineTerminator, Bool.or_eq_false_iff, decide_eq_false_iff_not]
  omega

theorem escapeByte_oneLine (b : ℕ) : OneLine (escapeByte b) := by
  intro c hc
  have hbound : c = 92 ∨ (32 ≤ c ∧ c < 127) := by
    unfold escapeByte at hc
    split at hc
    · rename_i letter hletter
      simp only [List.mem_cons, List.not_mem_nil, or_false] at hc
      unfold escapeLetter at hletter
      split at hletter <;> simp at hletter <;> omega
    · split at hc
      · simp only [List.mem_cons, List.not_mem_nil, or_false] at hc
        omega
      · rename_i hplain
        obtain rfl := List.mem_singleton.mp hc
        simp only [mustQuote, Bool.or_eq_true, decide_eq_true_eq, not_or] at hplain
        omega
  simp only [isLineTerminator, Bool.or_eq_false_iff, decide_eq_false_iff_not]
  omega

theorem name_oneLine (p : Path) : OneLine (name [] p) := by
  unfold name
  split
  · rename_i h
    exact oneLine_of_unquoted h
  · refine OneLine.append (OneLine.append (by unfold OneLine; decide) ?_)
      (by unfold OneLine; decide)
    intro c hc
    obtain ⟨b, -, hc⟩ := List.mem_flatMap.mp hc
    exact escapeByte_oneLine b c hc

theorem name_ne_nil (p : Path) : name [] p ≠ [] := by
  unfold name
  split
  · exact p.2
  · simp

/-- A group at the end of an expression takes the rest of the line. -/
theorem lineGroup_run (n : ℕ) {b v : Text} {caps : Captures ℕ} (hv : OneLine v) (hne : v ≠ []) :
    (Regex.group n (.many1 .dot)).run (Regex.eol.run Regex.done) ⟨b, v⟩ caps =
      some (⟨v.reverse ++ b, []⟩, (n, v) :: caps) := by
  obtain ⟨c, w, rfl⟩ := List.exists_cons_of_ne_nil hne
  have hdot : ∀ d ∈ c :: w, (!isLineTerminator d) = true := fun d hd => by rw [hv d hd]; rfl
  rw [Regex.run_group, Regex.many1, Regex.run_seq]
  unfold Regex.dot
  rw [Regex.run_cls_cons, if_pos (hdot c (by simp))]
  have hmany := Regex.run_many (fun d => !isLineTerminator d)
    (fun pos' caps' => Regex.eol.run Regex.done pos'
      ((n, (c :: w).take ((c :: w).length - pos'.after.length)) :: caps')) (c :: b) w caps
  refine hmany.trans ?_
  have hstop := Regex.greedy_of_stop (fun d => !isLineTerminator d)
    (fun pos' caps' => Regex.eol.run Regex.done pos'
      ((n, (c :: w).take ((c :: w).length - pos'.after.length)) :: caps')) caps w (c :: b) []
    (fun d hd => hdot d (by simp [hd])) (by simp) (fun _ _ _ _ => rfl)
  rw [List.append_nil] at hstop
  rw [hstop]
  simp [Regex.done]

/-- A separator does not straddle the end of what stands before another one. -/
theorem separator_prefix {y v : Text} (hy : y ≠ []) (h : lit " b/" <+: y ++ (lit " b/" ++ v)) :
    lit " b/" <+: y := by
  rw [show lit " b/" = [32, 98, 47] by decide] at h ⊢
  match y, hy with
  | [_], _ => simp at h
  | [_, _], _ => simp at h
  | _ :: _ :: _ :: _, _ => simpa using h

/-- **The path of a header line.**  It is what follows the first ` b/` that leaves the first group
non-empty. -/
theorem fileHeader_capture {u v : Text} (hu : u ≠ []) (hsep : ¬ Separated u) (huline : OneLine u)
    (hv : v ≠ []) (hvline : OneLine v) :
    fileHeader.capture 2 (lit "diff --git a/" ++ (u ++ (lit " b/" ++ v))) = some v := by
  obtain ⟨c, w, rfl⟩ := List.exists_cons_of_ne_nil hu
  have hdot : ∀ d ∈ c :: w, (!isLineTerminator d) = true := fun d hd => by rw [huline d hd]; rfl
  have hrun : fileHeader.exec (lit "diff --git a/" ++ (c :: w ++ (lit " b/" ++ v))) =
      (Regex.str "diff --git a/").run ((Regex.group 1 (.seq .dot (.lazy .dot))).run
        ((Regex.str " b/").run ((Regex.group 2 (.many1 .dot)).run (Regex.eol.run Regex.done))))
        ⟨[], lit "diff --git a/" ++ (c :: w ++ (lit " b/" ++ v))⟩ [] := Regex.exec_bol _ _
  obtain ⟨pos, hpos⟩ : ∃ pos, fileHeader.exec
    (lit "diff --git a/" ++ (c :: w ++ (lit " b/" ++ v))) =
      some (pos, [(2, v), (1, c :: w)]) := by
    rw [hrun, Regex.str, Regex.run_units_append, Regex.run_group, Regex.run_seq, List.cons_append]
    unfold Regex.dot
    rw [Regex.run_cls_cons, if_pos (hdot c (by simp)), Regex.run_lazy, Regex.lazy_skip]
    · refine ⟨⟨v.reverse ++ ((lit " b/").reverse ++ (w.reverse ++
        c :: ((lit "diff --git a/").reverse ++ []))), []⟩, Regex.lazy_here _ ?_⟩
      rw [Regex.str, Regex.run_units_append]
      refine (lineGroup_run 2 hvline hv).trans ?_
      have hlen : (c :: (w ++ (lit " b/" ++ v))).length - (lit " b/" ++ v).length =
          (c :: w).length := by
        simp only [List.length_cons, List.length_append]
        omega
      have htake : (c :: (w ++ (lit " b/" ++ v))).take (c :: w).length = c :: w :=
        List.take_left
      dsimp only
      rw [hlen, htake]
    · exact fun d hd => hdot d (by simp [hd])
    · -- an earlier ` b/` would stand in the first group, or run into the one behind it
      rintro x y rfl hy
      apply Regex.run_units_of_not_prefix
      intro hpre
      obtain ⟨z, rfl⟩ := separator_prefix hy hpre
      exact hsep ⟨c :: x, z, by simp, rfl⟩
  rw [Regex.capture, hpos]
  rfl

theorem fileHeader_capture_none {line : Text} (h : ¬ lit "diff --git a/" <+: line) :
    fileHeader.capture 2 line = none := by
  have hrun : fileHeader.exec line =
      (Regex.str "diff --git a/").run ((Regex.group 1 (.seq .dot (.lazy .dot))).run
        ((Regex.str " b/").run ((Regex.group 2 (.many1 .dot)).run (Regex.eol.run Regex.done))))
        ⟨[], line⟩ [] := Regex.exec_bol _ _
  rw [Regex.capture, hrun, Regex.str, Regex.run_units_of_not_prefix _ _ _ _ h]
  rfl

theorem renameTo_capture {v : Text} (hv : v ≠ []) (hvline : OneLine v) :
    renameTo.capture 1 (lit "rename to " ++ v) = some v := by
  have hrun : renameTo.exec (lit "rename to " ++ v) = (Regex.str "rename to ").run
      ((Regex.group 1 (.many1 .dot)).run (Regex.eol.run Regex.done))
        ⟨[], lit "rename to " ++ v⟩ [] := Regex.exec_bol _ _
  rw [Regex.capture, hrun, Regex.str, Regex.run_units_append, lineGroup_run 1 hvline hv]
  rfl

theorem renameTo_capture_none {line : Text} (h : ¬ lit "rename to " <+: line) :
    renameTo.capture 1 line = none := by
  have hrun : renameTo.exec line = (Regex.str "rename to ").run
      ((Regex.group 1 (.many1 .dot)).run (Regex.eol.run Regex.done)) ⟨[], line⟩ [] :=
    Regex.exec_bol _ _
  rw [Regex.capture, hrun, Regex.str, Regex.run_units_of_not_prefix _ _ _ _ h]
  rfl

/-! ### The path a change is read under -/

theorem Separated.lt {p u v : Text} (h : p = u ++ (lit " b/" ++ v)) : u.length < p.length := by
  rw [h, List.length_append, List.length_append]
  have : (lit " b/").length = 3 := by decide
  omega

/-- The first separator behind the first unit of `p`, or the one that follows `p`. -/
theorem exists_first_separator (p : Text) :
    ¬ Separated p ∨ ∃ u v, u ≠ [] ∧ ¬ Separated u ∧ p = u ++ (lit " b/" ++ v) := by
  by_cases hsep : Separated p
  · right
    obtain ⟨u, ⟨hu, v, hpu⟩, hmin⟩ := Framing.exists_shortest
      (S := fun u : Text => u ≠ [] ∧ ∃ v, p = u ++ (lit " b/" ++ v)) (by
        obtain ⟨u, v, hu, hpu⟩ := hsep
        exact ⟨u, hu, v, hpu⟩)
    refine ⟨u, v, hu, ?_, hpu⟩
    rintro ⟨u', v', hu', hsplit⟩
    have hle :=
      hmin u' ⟨hu', v' ++ (lit " b/" ++ v), by rw [hpu, hsplit]; simp only [List.append_assoc]⟩
    have hlt := Separated.lt hsplit
    omega
  · exact .inl hsep

/-- The path that the header line of a change is read as. -/
def readPath (change : FileChange) : Option Text := fileHeader.capture 2 (headerLine change)

theorem headerLine_unquoted {change : FileChange} (hold : Unquoted change.oldPath)
    (hnew : Unquoted change.path) : headerLine change =
      lit "diff --git a/" ++ (change.oldPath.1 ++ (lit " b/" ++ change.path.1)) := by
  unfold headerLine name
  rw [if_pos hold, if_pos hnew, show lit "diff --git a/" = lit "diff --git " ++ lit "a/" by decide,
    show lit " b/" = lit " " ++ lit "b/" by decide]
  simp only [List.append_assoc]

theorem readPath_of_not_separated {change : FileChange} (hold : Unquoted change.oldPath)
    (hnew : Unquoted change.path) (hsep : ¬ Separated change.oldPath.1) :
    readPath change = some change.path.1 := by
  rw [readPath, headerLine_unquoted hold hnew]
  exact fileHeader_capture change.oldPath.2 hsep (oneLine_of_unquoted hold) change.path.2
    (oneLine_of_unquoted hnew)

/-- A path that holds a separator is read as something longer. -/
theorem readPath_of_separated {change : FileChange} (hold : Unquoted change.oldPath)
    (hnew : Unquoted change.path) (hsep : Separated change.oldPath.1) :
    ∃ path, readPath change = some path ∧ change.path.1.length < path.length := by
  rcases exists_first_separator change.oldPath.1 with h | ⟨u, v, hu, husep, hpu⟩
  · exact absurd hsep h
  · have hline := oneLine_of_unquoted hold
    rw [hpu] at hline
    have hsepline : OneLine (lit " b/") := by unfold OneLine; decide
    refine ⟨v ++ (lit " b/" ++ change.path.1), ?_, ?_⟩
    · rw [readPath, headerLine_unquoted hold hnew, hpu, List.append_assoc, List.append_assoc]
      exact fileHeader_capture hu husep hline.left (by simp [lit])
        (hline.right.right.append (hsepline.append (oneLine_of_unquoted hnew)))
    · have : (lit " b/").length = 3 := by decide
      rw [List.length_append, List.length_append]
      omega

/-- A quoted old path hides the header. -/
theorem readPath_of_quoted {change : FileChange} (hold : ¬ Unquoted change.oldPath) :
    readPath change = none := by
  apply fileHeader_capture_none
  have hquoted : headerLine change = lit "diff --git \"" ++
      ((utf8 (lit "a/" ++ change.oldPath.1)).flatMap escapeByte ++ ([34] ++ (lit " " ++
        name (lit "b/") change.path))) := by
    unfold headerLine
    rw [name, if_neg hold, show lit "diff --git \"" = lit "diff --git " ++ [34] by decide]
    simp only [List.append_assoc]
  rw [hquoted]
  exact Apart.not_prefix_append (by decide) _

/-! ### The lines behind the header -/

theorem isPrefixOf_append_false {s t : Text} (h : Apart s t) (rest : Text) :
    s.isPrefixOf (t ++ rest) = false := by
  rw [Bool.eq_false_iff, ne_eq, List.isPrefixOf_iff_prefix]
  exact h.not_prefix_append rest

/-- A text that starts no line `parseFileLine` reacts to. -/
def Inert (t : Text) : Prop :=
  ∀ s ∈ [lit "new file mode", lit "deleted file mode", lit "rename to ", lit "+++", lit "---",
    lit "+", lit "-"], Apart s t

instance (t : Text) : Decidable (Inert t) := inferInstanceAs (Decidable (∀ s ∈ _, _))

theorem parseFileLine_inert {t : Text} (h : Inert t) (file : DiffFile) (rest : Text) :
    parseFileLine file (t ++ rest) = file := by
  have hprefix : ∀ s ∈ [lit "new file mode", lit "deleted file mode", lit "rename to ", lit "+++",
      lit "---", lit "+", lit "-"], s.isPrefixOf (t ++ rest) = false :=
    fun s hs => isPrefixOf_append_false (h s hs) rest
  have hrename : renameTo.capture 1 (t ++ rest) = none :=
    renameTo_capture_none ((h (lit "rename to ") (by simp)).not_prefix_append rest)
  simp only [List.forall_mem_cons] at hprefix
  obtain ⟨hnew, hdeleted, -, hplus3, hminus3, hplus, hminus, -⟩ := hprefix
  simp only [parseFileLine, hnew, hdeleted, hrename, hplus3, hminus3, hplus, hminus,
    Bool.false_eq_true, if_false, Bool.or_self]

/-- An added line, unless it starts like a header. -/
theorem parseFileLine_plus (file : DiffFile) (rest : Text) :
    parseFileLine file (lit "+" ++ rest) =
      if lit "++" <+: rest then file
      else { file with addedLines := file.addedLines ++ [rest] } := by
  have hapart : ∀ s ∈ [lit "new file mode", lit "deleted file mode", lit "---"],
      s.isPrefixOf (lit "+" ++ rest) = false :=
    fun s hs => isPrefixOf_append_false (by revert s; decide) rest
  have hrename : renameTo.capture 1 (lit "+" ++ rest) = none :=
    renameTo_capture_none (Apart.not_prefix_append (by decide) rest)
  have hhead : (lit "+++").isPrefixOf (lit "+" ++ rest) = true ↔ lit "++" <+: rest := by
    rw [List.isPrefixOf_iff_prefix, show lit "+++" = lit "+" ++ lit "++" by decide]
    exact List.prefix_append_right_inj _
  have hplus : (lit "+").isPrefixOf (lit "+" ++ rest) = true :=
    List.isPrefixOf_iff_prefix.mpr (List.prefix_append _ _)
  simp only [List.forall_mem_cons] at hapart
  obtain ⟨hnew, hdeleted, hminus3, -⟩ := hapart
  simp only [parseFileLine, hnew, hdeleted, hrename, hminus3, hplus, Bool.false_eq_true, if_false,
    Bool.or_false, if_true, hhead]
  rfl

/-- A removed line, unless it starts like a header. -/
theorem parseFileLine_minus (file : DiffFile) (rest : Text) :
    parseFileLine file (lit "-" ++ rest) =
      if lit "--" <+: rest then file
      else { file with removedLines := file.removedLines ++ [rest] } := by
  have hapart : ∀ s ∈ [lit "new file mode", lit "deleted file mode", lit "+++", lit "+"],
      s.isPrefixOf (lit "-" ++ rest) = false :=
    fun s hs => isPrefixOf_append_false (by revert s; decide) rest
  have hrename : renameTo.capture 1 (lit "-" ++ rest) = none :=
    renameTo_capture_none (Apart.not_prefix_append (by decide) rest)
  have hhead : (lit "---").isPrefixOf (lit "-" ++ rest) = true ↔ lit "--" <+: rest := by
    rw [List.isPrefixOf_iff_prefix, show lit "---" = lit "-" ++ lit "--" by decide]
    exact List.prefix_append_right_inj _
  have hminus : (lit "-").isPrefixOf (lit "-" ++ rest) = true :=
    List.isPrefixOf_iff_prefix.mpr (List.prefix_append _ _)
  simp only [List.forall_mem_cons] at hapart
  obtain ⟨hnew, hdeleted, hplus3, hplus, -⟩ := hapart
  simp only [parseFileLine, hnew, hdeleted, hrename, hplus3, hplus, hminus, Bool.false_eq_true,
    if_false, Bool.false_or, if_true, hhead]
  rfl

theorem parseFileLine_newFile (file : DiffFile) (rest : Text) :
    parseFileLine file (lit "new file mode " ++ rest) = { file with status := .added } := by
  have hnew : (lit "new file mode").isPrefixOf (lit "new file mode " ++ rest) = true :=
    List.isPrefixOf_iff_prefix.mpr (List.IsPrefix.trans (by decide) (List.prefix_append _ _))
  simp only [parseFileLine, hnew, if_true]

theorem parseFileLine_deletedFile (file : DiffFile) (rest : Text) :
    parseFileLine file (lit "deleted file mode " ++ rest) = { file with status := .removed } := by
  have hnew : (lit "new file mode").isPrefixOf (lit "deleted file mode " ++ rest) = false :=
    isPrefixOf_append_false (by decide) rest
  have hdeleted : (lit "deleted file mode").isPrefixOf (lit "deleted file mode " ++ rest) = true :=
    List.isPrefixOf_iff_prefix.mpr (List.IsPrefix.trans (by decide) (List.prefix_append _ _))
  simp only [parseFileLine, hnew, hdeleted, Bool.false_eq_true, if_false, if_true]

theorem parseFileLine_renameTo (file : DiffFile) {path : Text} (hne : path ≠ [])
    (hline : OneLine path) : parseFileLine file (lit "rename to " ++ path) =
      { file with status := .renamed, path := path } := by
  have hapart : ∀ s ∈ [lit "new file mode", lit "deleted file mode"],
      s.isPrefixOf (lit "rename to " ++ path) = false :=
    fun s hs => isPrefixOf_append_false (by revert s; decide) path
  simp only [List.forall_mem_cons] at hapart
  obtain ⟨hnew, hdeleted, -⟩ := hapart
  simp only [parseFileLine, hnew, hdeleted, renameTo_capture hne hline, Bool.false_eq_true,
    if_false]

/-! ### Whole files -/

/-- The added lines that come through. -/
def seenAdded (lines : List HunkLine) : List Text :=
  (lines.filterMap HunkLine.addedText).filter fun line => ¬ lit "++" <+: line

/-- The removed lines that come through. -/
def seenRemoved (lines : List HunkLine) : List Text :=
  (lines.filterMap HunkLine.removedText).filter fun line => ¬ lit "--" <+: line

/-- A file with further lines. -/
def DiffFile.adding (file : DiffFile) (added removed : List Text) : DiffFile :=
  { file with addedLines := file.addedLines ++ added, removedLines := file.removedLines ++ removed }

theorem DiffFile.adding_adding (file : DiffFile) (a r a' r' : List Text) :
    (file.adding a r).adding a' r' = file.adding (a ++ a') (r ++ r') := by
  simp only [DiffFile.adding, List.append_assoc]

@[simp] theorem DiffFile.adding_nil (file : DiffFile) : file.adding [] [] = file := by
  simp [DiffFile.adding]

theorem parseFileLine_hunkLine (file : DiffFile) (line : HunkLine) :
    parseFileLine file (hunkLine line) = file.adding (seenAdded [line]) (seenRemoved [line]) := by
  cases line with
  | context text =>
    rw [hunkLine, parseFileLine_inert (by decide)]
    simp [seenAdded, seenRemoved, List.filterMap_cons, HunkLine.addedText, HunkLine.removedText]
  | added text =>
    rw [hunkLine, parseFileLine_plus]
    by_cases h : lit "++" <+: text.1 <;>
      simp [seenAdded, seenRemoved, List.filterMap_cons, HunkLine.addedText, HunkLine.removedText,
        DiffFile.adding, h]
  | removed text =>
    rw [hunkLine, parseFileLine_minus]
    by_cases h : lit "--" <+: text.1 <;>
      simp [seenAdded, seenRemoved, List.filterMap_cons, HunkLine.addedText, HunkLine.removedText,
        DiffFile.adding, h]
  | noNewline =>
    rw [hunkLine, ← List.append_nil (lit "\\ No newline at end of file"),
      parseFileLine_inert (by decide)]
    simp [seenAdded, seenRemoved, List.filterMap_cons, HunkLine.addedText, HunkLine.removedText]

theorem seenAdded_cons (line : HunkLine) (lines : List HunkLine) :
    seenAdded (line :: lines) = seenAdded [line] ++ seenAdded lines := by
  simp only [seenAdded, ← List.filter_append, ← List.filterMap_append, List.singleton_append]

theorem seenRemoved_cons (line : HunkLine) (lines : List HunkLine) :
    seenRemoved (line :: lines) = seenRemoved [line] ++ seenRemoved lines := by
  simp only [seenRemoved, ← List.filter_append, ← List.filterMap_append, List.singleton_append]

theorem foldl_parseFileLine_hunkLine (lines : List HunkLine) : ∀ file : DiffFile,
    (lines.map hunkLine).foldl parseFileLine file =
      file.adding (seenAdded lines) (seenRemoved lines) := by
  induction lines with
  | nil => intro file; simp [seenAdded, seenRemoved]
  | cons line lines ih =>
    intro file
    rw [List.map_cons, List.foldl_cons, parseFileLine_hunkLine, ih, DiffFile.adding_adding,
      ← seenAdded_cons, ← seenRemoved_cons]

theorem hunkHeader_inert (file : DiffFile) (hunk : Hunk) :
    parseFileLine file (hunkHeader hunk) = file := by
  simp only [hunkHeader, List.append_assoc]
  exact parseFileLine_inert (by decide) _ _

theorem foldl_parseFileLine_hunks (hunks : List Hunk) : ∀ file : DiffFile,
    (hunks.flatMap hunkLines).foldl parseFileLine file =
      file.adding (seenAdded (hunks.flatMap Hunk.lines))
        (seenRemoved (hunks.flatMap Hunk.lines)) := by
  induction hunks with
  | nil => intro file; simp [seenAdded, seenRemoved]
  | cons hunk hunks ih =>
    intro file
    rw [List.flatMap_cons, List.foldl_append, hunkLines, List.foldl_cons, hunkHeader_inert,
      foldl_parseFileLine_hunkLine, ih, DiffFile.adding_adding, List.flatMap_cons]
    simp only [seenAdded, seenRemoved, List.filterMap_append, List.filter_append]

/-- Lines that change nothing. -/
theorem foldl_parseFileLine_inert {lines : List Text} (h : ∀ line ∈ lines, ∀ file,
    parseFileLine file line = file) (file : DiffFile) : lines.foldl parseFileLine file = file := by
  induction lines with
  | nil => rfl
  | cons line lines ih =>
    rw [List.foldl_cons, h line (by simp), ih fun l hl => h l (by simp [hl])]

theorem modeLines_inert (change : FileChange) : ∀ line ∈ modeLines change, ∀ file,
    parseFileLine file line = file := by
  intro line hline file
  unfold modeLines at hline
  split at hline
  · simp only [List.mem_cons, List.not_mem_nil, or_false] at hline
    rcases hline with rfl | rfl <;> exact parseFileLine_inert (by decide) _ _
  · exact absurd hline (by simp)

theorem sideLines_inert (change : FileChange) : ∀ line ∈ sideLines change, ∀ file,
    parseFileLine file line = file := by
  intro line hline file
  simp only [sideLines, List.mem_cons, List.not_mem_nil, or_false] at hline
  rcases hline with rfl | rfl
  · rw [show lit "--- " = lit "-" ++ lit "-- " by decide, List.append_assoc, parseFileLine_minus,
      if_pos (List.IsPrefix.trans (by decide) (List.prefix_append _ _))]
  · rw [show lit "+++ " = lit "+" ++ lit "++ " by decide, List.append_assoc, parseFileLine_plus,
      if_pos (List.IsPrefix.trans (by decide) (List.prefix_append _ _))]

/-- The lines between the extended header and the hunks. -/
def middleLines (change : FileChange) : List Text :=
  indexLines change ++
  (if change.binary then
    [lit "Binary files " ++ oldLabel change ++ lit " and " ++ newLabel change ++ lit " differ"]
  else []) ++
  (if change.hunks = [] then [] else sideLines change)

theorem middleLines_inert (change : FileChange) : ∀ line ∈ middleLines change, ∀ file,
    parseFileLine file line = file := by
  intro line hline file
  simp only [middleLines, List.mem_append] at hline
  rcases hline with (hline | hline) | hline
  · unfold indexLines at hline
    split at hline
    · obtain rfl := List.mem_singleton.mp hline
      exact parseFileLine_inert (by decide) _ _
    · exact absurd hline (by simp)
  · split at hline
    · obtain rfl := List.mem_singleton.mp hline
      simp only [List.append_assoc]
      exact parseFileLine_inert (by decide) _ _
    · exact absurd hline (by simp)
  · split at hline
    · exact absurd hline (by simp)
    · exact sideLines_inert change line hline file

theorem bodyLines_eq (change : FileChange) : bodyLines change =
    kindLines change ++ (middleLines change ++ change.hunks.flatMap hunkLines) := by
  simp only [bodyLines, middleLines, List.append_assoc]

/-- The status and the path that the extended header lines leave. -/
def readKind (change : FileChange) (file : DiffFile) : DiffFile :=
  match change.kind with
  | .added => { file with status := .added }
  | .deleted => { file with status := .removed }
  | .modified => file
  | .renamed _ _ => { file with status := .renamed, path := name [] change.path }

theorem foldl_parseFileLine_kind (change : FileChange) (file : DiffFile) :
    (kindLines change).foldl parseFileLine file = readKind change file := by
  unfold kindLines readKind
  cases change.kind with
  | added => exact parseFileLine_newFile file change.mode.1
  | deleted => exact parseFileLine_deletedFile file change.mode.1
  | modified => exact foldl_parseFileLine_inert (modeLines_inert change) file
  | renamed old similarity =>
    have hsimilarity : ∀ n : ℕ, parseFileLine file (lit "similarity index " ++ decimal n ++ lit "%")
        = file := by
      intro n
      rw [List.append_assoc]
      exact parseFileLine_inert (by decide) _ _
    have hfrom : ∀ rest, parseFileLine file (lit "rename from " ++ rest) = file :=
      fun rest => parseFileLine_inert (by decide) _ _
    rw [List.foldl_append, foldl_parseFileLine_inert (modeLines_inert change), List.foldl_cons,
      List.foldl_cons, List.foldl_cons, List.foldl_nil, hsimilarity, hfrom,
      parseFileLine_renameTo file (name_ne_nil change.path) (name_oneLine change.path)]

/-- **What the lines behind a header do.** -/
theorem foldl_parseFileLine_body (change : FileChange) (file : DiffFile) :
    (bodyLines change).foldl parseFileLine file =
      (readKind change file).adding (seenAdded (change.hunks.flatMap Hunk.lines))
        (seenRemoved (change.hunks.flatMap Hunk.lines)) := by
  rw [bodyLines_eq, List.foldl_append, List.foldl_append, foldl_parseFileLine_kind,
    foldl_parseFileLine_inert (middleLines_inert change), foldl_parseFileLine_hunks]

/-! ### Whole diffs -/

/-- The files complete so far and the one being read. -/
def DiffState.all (s : DiffState) : List DiffFile := s.files ++ s.current.toList

/-- No line behind a header looks like one. -/
theorem bodyLines_not_header (change : FileChange) :
    ∀ line ∈ bodyLines change, fileHeader.capture 2 line = none := by
  have hapart : ∀ {t : Text}, Apart (lit "diff --git a/") t → ∀ rest,
      fileHeader.capture 2 (t ++ rest) = none :=
    fun h rest => fileHeader_capture_none (h.not_prefix_append rest)
  have hmode : ∀ line ∈ modeLines change, fileHeader.capture 2 line = none := by
    intro line hline
    unfold modeLines at hline
    split at hline
    · simp only [List.mem_cons, List.not_mem_nil, or_false] at hline
      rcases hline with rfl | rfl <;> exact hapart (by decide) _
    · exact absurd hline (by simp)
  intro line hline
  simp only [bodyLines_eq, middleLines, List.mem_append, List.mem_flatMap] at hline
  rcases hline with hline | ((hline | hline) | hline) | ⟨hunk, -, hline⟩
  · unfold kindLines at hline
    cases hkind : change.kind with
    | added =>
      simp only [hkind, List.mem_singleton] at hline
      exact hline ▸ hapart (by decide) _
    | deleted =>
      simp only [hkind, List.mem_singleton] at hline
      exact hline ▸ hapart (by decide) _
    | modified =>
      simp only [hkind] at hline
      exact hmode line hline
    | renamed old similarity =>
      simp only [hkind, List.mem_append, List.mem_cons, List.not_mem_nil, or_false] at hline
      rcases hline with hline | rfl | rfl | rfl
      · exact hmode line hline
      · rw [List.append_assoc]
        exact hapart (by decide) _
      · exact hapart (by decide) _
      · exact hapart (by decide) _
  · unfold indexLines at hline
    split at hline
    · obtain rfl := List.mem_singleton.mp hline
      exact hapart (by decide) _
    · exact absurd hline (by simp)
  · split at hline
    · obtain rfl := List.mem_singleton.mp hline
      simp only [List.append_assoc]
      exact hapart (by decide) _
    · exact absurd hline (by simp)
  · split at hline
    · exact absurd hline (by simp)
    · simp only [sideLines, List.mem_cons, List.not_mem_nil, or_false] at hline
      rcases hline with rfl | rfl <;> exact hapart (by decide) _
  · rcases List.mem_cons.mp hline with rfl | hline
    · simp only [hunkHeader, List.append_assoc]
      exact hapart (by decide) _
    · obtain ⟨hunkLine', -, rfl⟩ := List.mem_map.mp hline
      cases hunkLine' with
      | context text => exact hapart (by decide) _
      | added text => exact hapart (by decide) _
      | removed text => exact hapart (by decide) _
      | noNewline => exact fileHeader_capture_none (by decide)

theorem foldl_parseLine_body {lines : List Text}
    (h : ∀ line ∈ lines, fileHeader.capture 2 line = none) : ∀ (files : List DiffFile)
      (current : Option DiffFile), lines.foldl parseLine ⟨files, current⟩ =
        ⟨files, current.map fun file => lines.foldl parseFileLine file⟩ := by
  induction lines with
  | nil => intro files current; simp
  | cons line lines ih =>
    intro files current
    have hline : parseLine ⟨files, current⟩ line =
        ⟨files, current.map fun file => parseFileLine file line⟩ := by
      rw [parseLine, h line (by simp)]
      cases current <;> rfl
    rw [List.foldl_cons, hline, ih fun l hl => h l (by simp [hl])]
    cases current <;> rfl

/-- The file a change is read as under a path. -/
def readFile (change : FileChange) (path : Text) : DiffFile :=
  (bodyLines change).foldl parseFileLine ⟨path, .modified, [], []⟩

theorem foldl_parseLine_change {change : FileChange} {path : Text}
    (h : readPath change = some path) (s : DiffState) :
    (changeLines change).foldl parseLine s = ⟨s.all, some (readFile change path)⟩ := by
  have hheader : parseLine s (headerLine change) = ⟨s.all, some ⟨path, .modified, [], []⟩⟩ := by
    rw [parseLine, show fileHeader.capture 2 (headerLine change) = some path from h]
    rfl
  rw [changeLines, List.foldl_cons, hheader, foldl_parseLine_body (bodyLines_not_header change)]
  rfl

theorem files_parseUnifiedDiff_render (changes : List FileChange) :
    (parseUnifiedDiff (render changes)).files =
      (changes.foldl (fun s change => (changeLines change).foldl parseLine s) ⟨[], none⟩).all := by
  have hlast : ∀ s : DiffState, parseLine s [] = s := by
    rintro ⟨files, current⟩
    rw [parseLine, fileHeader_capture_none (by decide)]
    cases current with
    | none => rfl
    | some file =>
      have hempty : parseFileLine file [] = file := by
        rw [parseFileLine, renameTo_capture_none (by decide)]
        simp [lit]
      simp only [hempty]
  rw [parseUnifiedDiff, splitOn_render, List.foldl_append, List.foldl_cons, List.foldl_nil, hlast,
    List.foldl_flatMap]
  rfl

/-- **Every header recognised.**  The files read are those rendered, in order. -/
theorem parse_render {changes : List FileChange} {paths : FileChange → Text}
    (h : ∀ change ∈ changes, readPath change = some (paths change)) :
    (parseUnifiedDiff (render changes)).files =
      changes.map fun change => readFile change (paths change) := by
  have hfold : ∀ (changes : List FileChange) (s : DiffState),
      (∀ change ∈ changes, readPath change = some (paths change)) →
      (changes.foldl (fun s change => (changeLines change).foldl parseLine s) s).all =
        s.all ++ changes.map fun change => readFile change (paths change) := by
    intro changes
    induction changes with
    | nil => intro s _; simp
    | cons change changes ih =>
      intro s h
      rw [List.foldl_cons, ih _ fun c hc => h c (by simp [hc]),
        foldl_parseLine_change (h change (by simp))]
      simp [DiffState.all]
  rw [files_parseUnifiedDiff_render, hfold changes _ h]
  rfl

/-! ### Every content line -/

/-- No path a change touches is quoted or holds ` b/`. -/
def PlainPaths (changes : List FileChange) : Prop :=
  ∀ change ∈ changes, ∀ path ∈ change.touched, Unquoted path ∧ ¬ lit " b/" <:+: path.1

/-- Each file is read back under its path with exactly the lines it adds and removes, in order. -/
def LinesKept (changes : List FileChange) : Prop :=
  (parseUnifiedDiff (render changes)).files.map
      (fun file => (file.path, file.addedLines, file.removedLines)) =
    changes.map fun change => (change.path.1, change.addedLines, change.removedLines)

theorem oldPath_mem_touched (change : FileChange) : change.oldPath ∈ change.touched := by
  unfold FileChange.oldPath FileChange.touched
  cases change.kind <;> simp

theorem path_mem_touched (change : FileChange) : change.path ∈ change.touched := by
  unfold FileChange.touched
  cases change.kind <;> simp

theorem not_separated_of_free {p : Text} (h : ¬ lit " b/" <:+: p) : ¬ Separated p := by
  rintro ⟨u, v, -, rfl⟩
  exact h ⟨u, v, by simp only [List.append_assoc]⟩

theorem readFile_lines (change : FileChange) (path : Text) :
    (readFile change path).addedLines =
        change.addedLines.filter (fun line => ¬ lit "++" <+: line) ∧
      (readFile change path).removedLines =
        change.removedLines.filter (fun line => ¬ lit "--" <+: line) := by
  rw [readFile, foldl_parseFileLine_body]
  unfold readKind
  cases change.kind <;> exact ⟨rfl, rfl⟩

/-- The path in the header and the one behind `rename to` agree when neither is quoted. -/
theorem readFile_path {change : FileChange} (hnew : Unquoted change.path) :
    (readFile change change.path.1).path = change.path.1 := by
  rw [readFile, foldl_parseFileLine_body, readKind, name_unquoted hnew]
  cases change.kind <;> rfl

/-- **When every content line comes through.**  On paths that are neither quoted nor hold ` b/`, the
lines are read back exactly when no added line starts with `++` and no removed line with `--`. -/
theorem lines_kept_iff (changes : List FileChange) (hplain : PlainPaths changes) :
    LinesKept changes ↔ ∀ change ∈ changes,
      (∀ line ∈ change.addedLines, ¬ lit "++" <+: line) ∧
        ∀ line ∈ change.removedLines, ¬ lit "--" <+: line := by
  have hnew : ∀ change ∈ changes, Unquoted change.path :=
    fun change hc => (hplain change hc change.path (path_mem_touched change)).1
  have hread : ∀ change ∈ changes, readPath change = some change.path.1 := by
    intro change hc
    obtain ⟨hold, hsep⟩ := hplain change hc change.oldPath (oldPath_mem_touched change)
    exact readPath_of_not_separated hold (hnew change hc) (not_separated_of_free hsep)
  rw [LinesKept, parse_render hread, List.map_map, List.map_inj_left]
  refine forall₂_congr fun change hc => ?_
  obtain ⟨hadded, hremoved⟩ := readFile_lines change change.path.1
  simp only [Function.comp_apply, readFile_path (hnew change hc), hadded, hremoved, Prod.mk.injEq,
    true_and, List.filter_eq_self, decide_eq_true_eq]

/-- A text file changed in one hunk. -/
def sampleChange (kind : ChangeKind) (path : Path) (lines : List HunkLine) : FileChange where
  kind := kind
  path := path
  mode := ⟨lit "100644", by decide⟩
  newMode := none
  index := some ⟨lit "3b18e51..a042389 100644", by decide⟩
  binary := false
  hunks := [⟨1, 1, ⟨[], by decide⟩, lines⟩]

/-- A migration that drops a comment and adds a line starting with `++`. -/
def lostLines : FileChange :=
  sampleChange .modified ⟨lit "drizzle/0001.sql", by decide⟩
    [.removed ⟨lit "-- keep this table", by decide⟩,
      .added ⟨lit "++ DROP TABLE articles;", by decide⟩]

/-- Both lines are taken for headers. -/
theorem header_like_lines_lost : PlainPaths [lostLines] ∧ ¬ LinesKept [lostLines] := by
  constructor
  · unfold PlainPaths
    decide +kernel
  · unfold LinesKept
    decide +kernel

theorem lines_kept_sample :
    LinesKept [sampleChange .modified ⟨lit "a.ts", by decide⟩ [.added ⟨lit "+ 1", by decide⟩]] ↔
      ∀ change ∈ [sampleChange .modified ⟨lit "a.ts", by decide⟩ [.added ⟨lit "+ 1", by decide⟩]],
        (∀ line ∈ change.addedLines, ¬ lit "++" <+: line) ∧
          ∀ line ∈ change.removedLines, ¬ lit "--" <+: line :=
  lines_kept_iff _ (by unfold PlainPaths; decide +kernel)

end Newsdeck.Loop

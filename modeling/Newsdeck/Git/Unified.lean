import Newsdeck.Ecma.Text

/-!
# Git's unified diff format

What `git diff` prints, with its default settings, for a list of file changes: the header of each
file, its extended header lines, and its hunks.  A path is quoted when it holds a control character,
a quotation mark, a backslash or a unit outside ASCII.

A `Line` is text without a line break, so a rendered diff splits back into the lines it was made of
(`splitOn_render`).
-/

namespace Git

open Ecma

/-- Text without a line break. -/
abbrev Line := {t : Text // 10 ∉ t}

/-- A path of the repository. -/
abbrev Path := {p : Text // p ≠ []}

/-! ### Changes -/

inductive HunkLine where
  | context (text : Line)
  | added (text : Line)
  | removed (text : Line)
  | noNewline

structure Hunk where
  oldStart : ℕ
  newStart : ℕ
  heading : Line
  lines : List HunkLine

inductive ChangeKind where
  | added
  | deleted
  | modified
  | renamed (old : Path) (similarity : ℕ)

/-- One file of a change.  `index` is what stands behind that word when the contents differ. -/
structure FileChange where
  kind : ChangeKind
  path : Path
  mode : Line
  newMode : Option Line
  index : Option Line
  binary : Bool
  hunks : List Hunk

/-- The path before the change. -/
def FileChange.oldPath (change : FileChange) : Path :=
  match change.kind with
  | .renamed old _ => old
  | _ => change.path

/-- The paths a change touches. -/
def FileChange.touched (change : FileChange) : List Path :=
  match change.kind with
  | .renamed old _ => [old, change.path]
  | _ => [change.path]

/-- The changes between two trees.  Changes that share a path touch the same paths: the file was
replaced by one of another type, which is printed as its deletion and its addition. -/
structure ChangeSet where
  changes : List FileChange
  nodup : ∀ change ∈ changes, change.touched.Nodup
  apart : ∀ change ∈ changes, ∀ other ∈ changes, ∀ path ∈ change.touched, path ∈ other.touched →
    change.touched = other.touched

def HunkLine.addedText : HunkLine → Option Text
  | .added text => some text.1
  | _ => none

def HunkLine.removedText : HunkLine → Option Text
  | .removed text => some text.1
  | _ => none

/-- The lines a change adds, hunk by hunk. -/
def FileChange.addedLines (change : FileChange) : List Text :=
  (change.hunks.flatMap Hunk.lines).filterMap HunkLine.addedText

/-- The lines a change removes. -/
def FileChange.removedLines (change : FileChange) : List Text :=
  (change.hunks.flatMap Hunk.lines).filterMap HunkLine.removedText

/-! ### Quoting -/

/-- The bytes of one code point. -/
def encodePoint (c : ℕ) : List ℕ :=
  if c < 0x80 then [c]
  else if c < 0x800 then [0xC0 + c / 0x40, 0x80 + c % 0x40]
  else if c < 0x10000 then [0xE0 + c / 0x1000, 0x80 + c / 0x40 % 0x40, 0x80 + c % 0x40]
  else [0xF0 + c / 0x40000, 0x80 + c / 0x1000 % 0x40, 0x80 + c / 0x40 % 0x40, 0x80 + c % 0x40]

/-- The UTF-8 bytes of a text; a surrogate pair is one code point. -/
def utf8 : Text → List ℕ
  | [] => []
  | [c] => encodePoint c
  | c :: d :: t =>
      if 0xD800 ≤ c && c < 0xDC00 && 0xDC00 ≤ d && d < 0xE000 then
        encodePoint (0x10000 + (c - 0xD800) * 0x400 + (d - 0xDC00)) ++ utf8 t
      else encodePoint c ++ utf8 (d :: t)

/-- A unit for which a path is quoted. -/
def mustQuote (c : ℕ) : Bool := c < 32 || c = 34 || c = 92 || 127 ≤ c

/-- The letters of the escapes `\a` to `\r`. -/
def escapeLetter : ℕ → Option ℕ
  | 7 => some 97
  | 8 => some 98
  | 9 => some 116
  | 10 => some 110
  | 11 => some 118
  | 12 => some 102
  | 13 => some 114
  | 34 => some 34
  | 92 => some 92
  | _ => none

/-- One byte of a quoted path. -/
def escapeByte (b : ℕ) : Text :=
  match escapeLetter b with
  | some letter => [92, letter]
  | none => if mustQuote b then [92, 48 + b / 64 % 8, 48 + b / 8 % 8, 48 + b % 8] else [b]

/-- The path is printed as it is. -/
def Unquoted (p : Path) : Prop := ∀ c ∈ p.1, mustQuote c = false

instance (p : Path) : Decidable (Unquoted p) := inferInstanceAs (Decidable (∀ c ∈ p.1, _))

/-- A path behind a prefix, quoted where it must be. -/
def name (pre : Text) (p : Path) : Text :=
  if Unquoted p then pre ++ p.1 else [34] ++ (utf8 (pre ++ p.1)).flatMap escapeByte ++ [34]

theorem name_unquoted {p : Path} (h : Unquoted p) (pre : Text) : name pre p = pre ++ p.1 :=
  if_pos h

/-! ### Rendering -/

/-- The first line of a file. -/
def headerLine (change : FileChange) : Text :=
  lit "diff --git " ++ name (lit "a/") change.oldPath ++ lit " " ++ name (lit "b/") change.path

/-- `old mode` and `new mode`. -/
def modeLines (change : FileChange) : List Text :=
  match change.newMode with
  | some newMode => [lit "old mode " ++ change.mode.1, lit "new mode " ++ newMode.1]
  | none => []

/-- The extended header lines. -/
def kindLines (change : FileChange) : List Text :=
  match change.kind with
  | .added => [lit "new file mode " ++ change.mode.1]
  | .deleted => [lit "deleted file mode " ++ change.mode.1]
  | .modified => modeLines change
  | .renamed old similarity =>
      modeLines change ++
        [lit "similarity index " ++ decimal similarity ++ lit "%",
          lit "rename from " ++ name [] old, lit "rename to " ++ name [] change.path]

def indexLines (change : FileChange) : List Text :=
  match change.index with
  | some index => [lit "index " ++ index.1]
  | none => []

/-- What the two sides of a file are called. -/
def oldLabel (change : FileChange) : Text :=
  match change.kind with
  | .added => lit "/dev/null"
  | _ => name (lit "a/") change.oldPath

def newLabel (change : FileChange) : Text :=
  match change.kind with
  | .deleted => lit "/dev/null"
  | _ => name (lit "b/") change.path

/-- A tab ends a label that holds a space. -/
def tabbed (label : Text) : Text := label ++ if 32 ∈ label then [9] else []

/-- The two lines above the hunks. -/
def sideLines (change : FileChange) : List Text :=
  [lit "--- " ++ tabbed (oldLabel change), lit "+++ " ++ tabbed (newLabel change)]

/-- `start,count`; a count of one is left out. -/
def range (start count : ℕ) : Text :=
  if count = 1 then decimal start else decimal start ++ lit "," ++ decimal count

/-- How many lines of a hunk stand on one side. -/
def Hunk.count (hunk : Hunk) (other : HunkLine → Option Text) : ℕ :=
  (hunk.lines.filter fun line =>
    match line with
    | .noNewline => false
    | _ => (other line).isNone).length

def hunkHeader (hunk : Hunk) : Text :=
  lit "@@ -" ++ range hunk.oldStart (hunk.count HunkLine.addedText) ++ lit " +" ++
    range hunk.newStart (hunk.count HunkLine.removedText) ++ lit " @@" ++
    if hunk.heading.1 = [] then [] else lit " " ++ hunk.heading.1

def hunkLine : HunkLine → Text
  | .context text => lit " " ++ text.1
  | .added text => lit "+" ++ text.1
  | .removed text => lit "-" ++ text.1
  | .noNewline => lit "\\ No newline at end of file"

def hunkLines (hunk : Hunk) : List Text := hunkHeader hunk :: hunk.lines.map hunkLine

/-- What follows the header line of a file. -/
def bodyLines (change : FileChange) : List Text :=
  kindLines change ++ indexLines change ++
  (if change.binary then
    [lit "Binary files " ++ oldLabel change ++ lit " and " ++ newLabel change ++ lit " differ"]
  else []) ++
  (if change.hunks = [] then [] else sideLines change) ++ change.hunks.flatMap hunkLines

def changeLines (change : FileChange) : List Text := headerLine change :: bodyLines change

/-- The diff of a list of changes, every line ended by a line break. -/
def render (changes : List FileChange) : Text :=
  (changes.flatMap changeLines).flatMap fun line => line ++ [10]

/-! ### A rendered line holds no line break -/

theorem escapeByte_noBreak (b : ℕ) : 10 ∉ escapeByte b := by
  unfold escapeByte
  split
  · rename_i letter h
    have hletter : letter ≠ 10 := by
      rintro rfl
      unfold escapeLetter at h
      split at h <;> simp at h
    simp only [List.mem_cons, List.not_mem_nil, or_false, not_or]
    exact ⟨by decide, fun h => hletter h.symm⟩
  · split
    · simp only [List.mem_cons, List.not_mem_nil, or_false, not_or]
      omega
    · rename_i h
      simp only [List.mem_singleton]
      rintro rfl
      exact h (by decide)

theorem Unquoted.noBreak {p : Path} (h : Unquoted p) : 10 ∉ p.1 := by
  intro hmem
  exact absurd (h 10 hmem) (by decide)

theorem name_noBreak {pre : Text} (hpre : 10 ∉ pre) (p : Path) : 10 ∉ name pre p := by
  unfold name
  split
  · rename_i h
    simp only [List.mem_append, not_or]
    exact ⟨hpre, h.noBreak⟩
  · simp only [List.mem_append, List.mem_flatMap, not_or, not_exists, not_and]
    exact ⟨⟨by decide, fun b _ => escapeByte_noBreak b⟩, by decide⟩

theorem decimal_noBreak (n : ℕ) : 10 ∉ decimal n := by
  intro h
  have := decimal_digit h
  omega

theorem append_noBreak {s t : Text} (hs : 10 ∉ s) (ht : 10 ∉ t) : 10 ∉ s ++ t := by
  rw [List.mem_append, not_or]
  exact ⟨hs, ht⟩

theorem oldLabel_noBreak (change : FileChange) : 10 ∉ oldLabel change := by
  unfold oldLabel
  split
  · decide
  · exact name_noBreak (by decide) _

theorem newLabel_noBreak (change : FileChange) : 10 ∉ newLabel change := by
  unfold newLabel
  split
  · decide
  · exact name_noBreak (by decide) _

theorem tabbed_noBreak {label : Text} (h : 10 ∉ label) : 10 ∉ tabbed label := by
  refine append_noBreak h ?_
  split <;> decide

theorem range_noBreak (start count : ℕ) : 10 ∉ range start count := by
  unfold range
  split
  · exact decimal_noBreak start
  · exact append_noBreak (append_noBreak (decimal_noBreak start) (by decide)) (decimal_noBreak count)

theorem headerLine_noBreak (change : FileChange) : 10 ∉ headerLine change :=
  append_noBreak (append_noBreak (append_noBreak (by decide) (name_noBreak (by decide) _))
    (by decide)) (name_noBreak (by decide) _)

theorem modeLines_noBreak (change : FileChange) : ∀ line ∈ modeLines change, 10 ∉ line := by
  unfold modeLines
  split
  · rename_i newMode _
    simp only [List.forall_mem_cons, List.not_mem_nil, false_implies, implies_true, and_true]
    exact ⟨append_noBreak (by decide) change.mode.2, append_noBreak (by decide) newMode.2⟩
  · simp

theorem kindLines_noBreak (change : FileChange) : ∀ line ∈ kindLines change, 10 ∉ line := by
  unfold kindLines
  split
  · simpa using append_noBreak (by decide) change.mode.2
  · simpa using append_noBreak (by decide) change.mode.2
  · exact modeLines_noBreak change
  · intro line hline
    rcases List.mem_append.mp hline with hline | hline
    · exact modeLines_noBreak change line hline
    · simp only [List.mem_cons, List.not_mem_nil, or_false] at hline
      rcases hline with rfl | rfl | rfl
      · exact append_noBreak (append_noBreak (by decide) (decimal_noBreak _)) (by decide)
      · exact append_noBreak (by decide) (name_noBreak (by decide) _)
      · exact append_noBreak (by decide) (name_noBreak (by decide) _)

theorem hunkLines_noBreak (hunk : Hunk) : ∀ line ∈ hunkLines hunk, 10 ∉ line := by
  unfold hunkLines hunkHeader
  simp only [List.forall_mem_cons, List.forall_mem_map]
  refine ⟨append_noBreak (append_noBreak (append_noBreak (append_noBreak (append_noBreak
    (by decide) (range_noBreak _ _)) (by decide)) (range_noBreak _ _)) (by decide)) ?_, ?_⟩
  · split
    · simp
    · exact append_noBreak (by decide) hunk.heading.2
  · intro line _
    cases line with
    | context text => exact append_noBreak (by decide) text.2
    | added text => exact append_noBreak (by decide) text.2
    | removed text => exact append_noBreak (by decide) text.2
    | noNewline => decide

theorem changeLines_noBreak (change : FileChange) : ∀ line ∈ changeLines change, 10 ∉ line := by
  unfold changeLines bodyLines
  intro line hline
  simp only [List.mem_cons, List.mem_append, List.mem_flatMap] at hline
  rcases hline with rfl | (((hline | hline) | hline) | hline) | ⟨hunk, -, hline⟩
  · exact headerLine_noBreak change
  · exact kindLines_noBreak change line hline
  · unfold indexLines at hline
    split at hline
    · rename_i index _
      obtain rfl := List.mem_singleton.mp hline
      exact append_noBreak (by decide) index.2
    · exact absurd hline (by simp)
  · split at hline
    · obtain rfl := List.mem_singleton.mp hline
      exact append_noBreak (append_noBreak (append_noBreak (append_noBreak (by decide)
        (oldLabel_noBreak change)) (by decide)) (newLabel_noBreak change)) (by decide)
    · exact absurd hline (by simp)
  · split at hline
    · exact absurd hline (by simp)
    · simp only [sideLines, List.mem_cons, List.not_mem_nil, or_false] at hline
      rcases hline with rfl | rfl
      · exact append_noBreak (by decide) (tabbed_noBreak (oldLabel_noBreak change))
      · exact append_noBreak (by decide) (tabbed_noBreak (newLabel_noBreak change))
  · exact hunkLines_noBreak hunk line hline

theorem intercalate_lines (lines : List Text) :
    lines.flatMap (fun line => line ++ [10]) = [10].intercalate (lines ++ [[]]) := by
  induction lines with
  | nil => rfl
  | cons line lines ih =>
    have hne : lines ++ [[]] ≠ [] := by simp
    rw [List.flatMap_cons, ih, List.cons_append, List.intercalate_cons_of_ne_nil hne]

/-- **A rendered diff splits into its lines.** -/
theorem splitOn_render (changes : List FileChange) :
    (render changes).splitOn 10 = changes.flatMap changeLines ++ [[]] := by
  rw [render, intercalate_lines, List.splitOn_intercalate]
  · intro line hline
    rcases List.mem_append.mp hline with hline | hline
    · obtain ⟨change, -, hline⟩ := List.mem_flatMap.mp hline
      exact changeLines_noBreak change line hline
    · obtain rfl := List.mem_singleton.mp hline
      simp
  · simp

end Git

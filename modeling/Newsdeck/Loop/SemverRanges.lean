import Newsdeck.Ecma.FormEncoding
import Newsdeck.Loop.ExportLines

/-!
# Version ranges and what recognises them

The grammar of npm's version ranges as a tree that is written out, beside the two expressions
`dependencyChanges` reads specifiers with.

* `RangeSet.exists_leading` — a range with a leading number is signs, the number, and a rest;
* `test_dependencyValue_iff`, `leadingMajor_eq` — what the two expressions make of such a text;
* `RangeSet.recognised_iff` — the ranges that are recognised and give a number: one comparator,
  plainly written.
-/

namespace Newsdeck.Loop

open Ecma

namespace Semver

/-! ### The grammar -/

def blanks (n : ℕ) : Text := List.replicate n 32

/-- A number of a version, or a wildcard for it. -/
inductive Part where
  | number (n : ℕ)
  | wildcard (sign : ℕ) (h : sign ∈ lit "xX*")

def Part.text : Part → Text
  | number n => decimal n
  | wildcard sign _ => [sign]

/-- A prerelease or a build: words with dots between them. -/
structure Identifiers where
  words : List Text
  words_ne_nil : words ≠ []
  units : ∀ word ∈ words, word ≠ [] ∧ ∀ c ∈ word, isLetter c = true ∨ isDigit c = true ∨ c = 45

def Identifiers.text (identifiers : Identifiers) : Text := join (lit ".") identifiers.words

/-- Identifiers behind their sign, or nothing. -/
def labelled (sign : String) : Option Identifiers → Text
  | some identifiers => lit sign ++ identifiers.text
  | none => []

/-- A version of which some parts may be left out. -/
inductive Version where
  | major (major : Part)
  | minor (major minor : Part)
  | patch (major minor patch : Part) (prerelease build : Option Identifiers)

namespace Version

def first : Version → Part
  | major first | minor first _ | patch first _ _ _ _ => first

/-- What is written behind the first part. -/
def rest : Version → Text
  | major _ => []
  | minor _ second => lit "." ++ second.text
  | patch _ second third prerelease build =>
      lit "." ++ second.text ++ lit "." ++ third.text ++ labelled "-" prerelease ++
        labelled "+" build

def text (version : Version) : Text := version.first.text ++ version.rest

end Version

/-- A version with signs that mean nothing in front of it. -/
structure Signed where
  signs : Text
  version : Version
  signs_mem : ∀ c ∈ signs, c ∈ lit "v= "

def Signed.text (signed : Signed) : Text := signed.signs ++ signed.version.text

inductive Operator where
  | plain | less | greater | atMost | atLeast | equal | tilde | tildeGreater | caret

def Operator.text : Operator → Text
  | plain => []
  | less => lit "<"
  | greater => lit ">"
  | atMost => lit "<="
  | atLeast => lit ">="
  | equal => lit "="
  | tilde => lit "~"
  | tildeGreater => lit "~>"
  | caret => lit "^"

structure Comparator where
  operator : Operator
  signed : Signed

def Comparator.text (comparator : Comparator) : Text :=
  comparator.operator.text ++ comparator.signed.text

/-- One range: anything, two versions with a dash between them, or comparators with blanks between
them (one more than the number in front of each). -/
inductive Range where
  | any
  | hyphen (low : Signed) (before after : ℕ) (high : Signed)
  | comparators (first : Comparator) (more : List (ℕ × Comparator))

namespace Range

def spaced (more : List (ℕ × Comparator)) : Text :=
  more.flatMap fun entry => blanks (entry.1 + 1) ++ entry.2.text

def text : Range → Text
  | any => []
  | hyphen low before after high =>
      low.text ++ blanks (before + 1) ++ lit "-" ++ blanks (after + 1) ++ high.text
  | comparators first more => first.text ++ spaced more

def versions : Range → List Version
  | any => []
  | hyphen low _ _ high => [low.version, high.version]
  | comparators first more => first.signed.version :: more.map fun entry => entry.2.signed.version

end Range

/-- A range with blanks around it. -/
structure Alternative where
  before : ℕ
  range : Range
  after : ℕ

def Alternative.text (alternative : Alternative) : Text :=
  blanks alternative.before ++ alternative.range.text ++ blanks alternative.after

/-- Ranges with `||` between them. -/
structure RangeSet where
  first : Alternative
  more : List Alternative

namespace RangeSet

/-- The later alternatives, each behind its `||`. -/
def alternatives (more : List Alternative) : Text :=
  more.flatMap fun alternative => lit "||" ++ alternative.text

def text (range : RangeSet) : Text := range.first.text ++ alternatives range.more

def versions (range : RangeSet) : List Version :=
  range.first.range.versions ++ range.more.flatMap fun alternative => alternative.range.versions

/-- The leading version number, unless the range has no version or begins with a wildcard. -/
def leading (range : RangeSet) : Option ℕ :=
  match range.versions.head?.map Version.first with
  | some (.number n) => some n
  | _ => none

end RangeSet

/-! ### Plainly written -/

def Part.IsNumber : Part → Prop
  | number _ => True
  | wildcard _ _ => False

/-- Not the wildcard `*`. -/
def Part.IsWord : Part → Prop
  | number _ => True
  | wildcard sign _ => sign ≠ 42

/-- There is a minor part, no wildcard is written `*`, and a build stands behind three numbers and
nothing else. -/
def Version.Plain : Version → Prop
  | major _ => False
  | minor _ second => second.IsWord
  | patch _ second third prerelease build =>
      second.IsWord ∧ third.IsWord ∧
        (build = none ∨ prerelease = none ∧ second.IsNumber ∧ third.IsNumber)

/-- One comparator, plainly written, and no blank behind it. -/
def RangeSet.Plain (range : RangeSet) : Prop :=
  ∃ comparator, range.more = [] ∧ range.first.after = 0 ∧
    range.first.range = .comparators comparator [] ∧ comparator.signed.version.Plain

/-! ### Signs, a number, and a rest -/

/-- What may stand in front of the first version. -/
def isSign (c : ℕ) : Bool := c ∈ lit "^~>=<v "

/-- Nothing, or a blank or bar that ends the version in front of it. -/
def Breaks (text : Text) : Prop := ∀ c ∈ text.head?, c = 32 ∨ c = 124

theorem Breaks.append {text text' : Text} (h : Breaks text) (h' : Breaks text') :
    Breaks (text ++ text') := by
  cases text with
  | nil => exact h'
  | cons c text => exact h

theorem breaks_blanks (n : ℕ) : Breaks (blanks n) := by
  cases n with
  | zero => simp [Breaks, blanks]
  | succ n => simp [Breaks, blanks, List.replicate_succ]

theorem blanks_eq_nil {n : ℕ} : blanks n = [] ↔ n = 0 := List.replicate_eq_nil_iff _

theorem isSign_blanks {n c : ℕ} (h : c ∈ blanks n) : isSign c = true := by
  rw [List.eq_of_mem_replicate h]
  decide

theorem isSign_operator {operator : Operator} {c : ℕ} (h : c ∈ operator.text) :
    isSign c = true := by
  have hall : ∀ c ∈ operator.text, isSign c = true := by cases operator <;> decide
  exact hall c h

theorem isSign_signs {signed : Signed} {c : ℕ} (h : c ∈ signed.signs) : isSign c = true := by
  have hall : ∀ c ∈ lit "v= ", isSign c = true := by decide
  exact hall c (signed.signs_mem c h)

theorem Range.breaks_spaced (more : List (ℕ × Comparator)) : Breaks (spaced more) := by
  cases more with
  | nil => simp [Breaks, spaced]
  | cons entry more =>
    rw [spaced, List.flatMap_cons, List.append_assoc]
    simp [Breaks, blanks, List.replicate_succ]

theorem Range.spaced_eq_nil {more : List (ℕ × Comparator)} : spaced more = [] ↔ more = [] := by
  cases more with
  | nil => simp [spaced]
  | cons entry more => simp [spaced, blanks, List.replicate_succ]

theorem RangeSet.breaks_alternatives (more : List Alternative) : Breaks (alternatives more) := by
  cases more with
  | nil => simp [Breaks, alternatives]
  | cons alternative more =>
    rw [alternatives, List.flatMap_cons, List.append_assoc]
    simp [Breaks, lit]

theorem RangeSet.alternatives_eq_nil {more : List Alternative} :
    alternatives more = [] ↔ more = [] := by
  cases more with
  | nil => simp [alternatives]
  | cons alternative more => simp [alternatives, lit]

/-- Signs stand in front of the first version of a range; nothing stands behind it when it is the
only comparator. -/
theorem Range.exists_first {range : Range} {version : Version}
    (h : range.versions.head? = some version) :
    ∃ signs rest, range.text = signs ++ (version.text ++ rest) ∧ (∀ c ∈ signs, isSign c = true) ∧
      Breaks rest ∧ (rest = [] ↔ ∃ comparator, range = .comparators comparator [] ∧
        comparator.signed.version = version) := by
  cases range with
  | any => cases h
  | hyphen low before after high =>
    obtain rfl : low.version = version := Option.some.inj h
    refine ⟨low.signs, blanks (before + 1) ++ lit "-" ++ blanks (after + 1) ++ high.text, ?_,
      fun c hc => isSign_signs hc, ?_, ?_⟩
    · simp [text, Signed.text]
    · simp [Breaks, blanks, List.replicate_succ]
    · simp [blanks, List.replicate_succ]
  | comparators first more =>
    obtain rfl : first.signed.version = version := Option.some.inj h
    refine ⟨first.operator.text ++ first.signed.signs, spaced more, ?_, ?_, breaks_spaced more, ?_⟩
    · simp [text, Comparator.text, Signed.text]
    · intro c hc
      exact (List.mem_append.mp hc).elim isSign_operator isSign_signs
    · rw [spaced_eq_nil]
      constructor
      · rintro rfl
        exact ⟨first, rfl, rfl⟩
      · rintro ⟨comparator, heq, -⟩
        exact (comparators.inj heq).2

/-- The alternatives in front of the first version are empty. -/
theorem Alternative.exists_first {alternative : Alternative} {more : List Alternative}
    {version : Version} (h : (alternative.range.versions ++
      more.flatMap fun alternative => alternative.range.versions).head? = some version) :
    ∃ signs rest, alternative.text ++ RangeSet.alternatives more = signs ++ (version.text ++ rest) ∧
      Breaks rest ∧ (∀ c ∈ signs, isSign c = true ∨ c = 124) ∧
      ((∀ c ∈ signs, isSign c = true) ∧ rest = [] ↔ ∃ comparator, more = [] ∧
        alternative.after = 0 ∧
        alternative.range = .comparators comparator [] ∧ comparator.signed.version = version) := by
  induction more generalizing alternative with
  | nil =>
    rw [List.flatMap_nil, List.append_nil] at h
    obtain ⟨signs, rest, htext, hsigns, hbreaks, hrest⟩ := Range.exists_first h
    have hall : ∀ c ∈ blanks alternative.before ++ signs, isSign c = true := by
      intro c hc
      exact (List.mem_append.mp hc).elim isSign_blanks (hsigns c)
    refine ⟨blanks alternative.before ++ signs, rest ++ blanks alternative.after, ?_,
      hbreaks.append (breaks_blanks _), fun c hc => .inl (hall c hc), ?_⟩
    · simp [Alternative.text, htext, RangeSet.alternatives]
    · rw [List.append_eq_nil_iff, hrest, blanks_eq_nil]
      constructor
      · rintro ⟨-, ⟨comparator, hrange, hversion⟩, hafter⟩
        exact ⟨comparator, rfl, hafter, hrange, hversion⟩
      · rintro ⟨comparator, -, hafter, hrange, hversion⟩
        exact ⟨hall, ⟨comparator, hrange, hversion⟩, hafter⟩
  | cons next more ih =>
    have hnone : ∀ {P : Prop}, ¬∃ comparator : Comparator, next :: more = [] ∧
      alternative.after = 0 ∧
        alternative.range = .comparators comparator [] ∧ P := by
      rintro P ⟨comparator, hnil, -⟩
      cases hnil
    cases hversions : alternative.range.versions with
    | nil =>
      rw [hversions, List.nil_append, List.flatMap_cons] at h
      obtain ⟨signs, rest, htext, hbreaks, hsigns, -⟩ := ih h
      have hrange : alternative.range = .any := by
        cases hcase : alternative.range with
        | any => rfl
        | hyphen => simp [hcase, Range.versions] at hversions
        | comparators => simp [hcase, Range.versions] at hversions
      refine ⟨blanks alternative.before ++ blanks alternative.after ++ lit "||" ++ signs, rest, ?_,
        hbreaks, ?_, ?_⟩
      · rw [RangeSet.alternatives, List.flatMap_cons]
        rw [RangeSet.alternatives] at htext
        simp only [List.append_assoc] at htext ⊢
        rw [htext]
        simp [Alternative.text, hrange, Range.text]
      · intro c hc
        simp only [List.append_assoc, List.mem_append] at hc
        rcases hc with hc | hc | hc | hc
        · exact .inl (isSign_blanks hc)
        · exact .inl (isSign_blanks hc)
        · have hbar : ∀ c ∈ lit "||", c = 124 := by decide
          exact .inr (hbar c hc)
        · exact hsigns c hc
      · refine iff_of_false ?_ fun ⟨c, hnil, _⟩ => absurd hnil (List.cons_ne_nil _ _)
        rintro ⟨hall, -⟩
        exact absurd (hall 124 (by simp [lit])) (by decide)
    | cons first later =>
      rw [hversions] at h
      obtain ⟨signs, rest, htext, hsigns, hbreaks, -⟩ :=
        Range.exists_first ((congrArg List.head? hversions).trans h)
      refine ⟨blanks alternative.before ++ signs,
        rest ++ (blanks alternative.after ++ RangeSet.alternatives (next :: more)), ?_,
        hbreaks.append ((breaks_blanks _).append (RangeSet.breaks_alternatives _)), ?_, ?_⟩
      · simp [Alternative.text, htext]
      · intro c hc
        exact .inl ((List.mem_append.mp hc).elim isSign_blanks (hsigns c))
      · refine iff_of_false ?_ fun ⟨c, hnil, _⟩ => absurd hnil (List.cons_ne_nil _ _)
        rintro ⟨-, hrest⟩
        rw [List.append_eq_nil_iff, List.append_eq_nil_iff, RangeSet.alternatives_eq_nil] at hrest
        exact absurd hrest.2.2 (List.cons_ne_nil _ _)

/-- **A range with a leading number** is written as signs and bars, the number, and a rest. -/
theorem RangeSet.exists_leading {range : RangeSet} {m : ℕ} (h : range.leading = some m) :
    ∃ (signs : Text) (version : Version) (rest : Text),
      range.text = signs ++ (decimal m ++ (version.rest ++ rest)) ∧
      Breaks rest ∧ (∀ c ∈ signs, isSign c = true ∨ c = 124) ∧
      (range.Plain ↔ (∀ c ∈ signs, isSign c = true) ∧ rest = [] ∧ version.Plain) := by
  cases hhead : range.versions.head? with
  | none => simp [leading, hhead] at h
  | some version =>
    have hfirst : version.first = .number m := by
      simp only [leading, hhead, Option.map_some] at h
      split at h
      · rename_i n heq
        rw [Option.some.inj heq, Option.some.inj h]
      · cases h
    obtain ⟨signs, rest, htext, hbreaks, hsigns, honly⟩ := Alternative.exists_first hhead
    refine ⟨signs, version, rest, ?_, hbreaks, hsigns, ?_⟩
    · rw [text, htext, Version.text, hfirst, Part.text, List.append_assoc]
    · rw [← and_assoc, honly]
      constructor
      · rintro ⟨comparator, hmore, hafter, hrange, hplain⟩
        have hversion : comparator.signed.version = version := by
          rw [versions, hmore, hrange] at hhead
          exact Option.some.inj hhead
        exact ⟨⟨comparator, hmore, hafter, hrange, hversion⟩, hversion ▸ hplain⟩
      · rintro ⟨⟨comparator, hmore, hafter, hrange, rfl⟩, hplain⟩
        exact ⟨comparator, hmore, hafter, hrange, hplain⟩

/-! ### The rest of a version -/

/-- `[\w.-]`. -/
def isQualifierUnit (c : ℕ) : Bool := isWord c || c = 46 || c = 45

/-- Numbers, each behind a dot. -/
inductive Dotted : Text → Prop
  | nil : Dotted []
  | cons {digits rest} (hdigits : digits ≠ []) (h : ∀ c ∈ digits, isDigit c = true)
      (hrest : Dotted rest) : Dotted (46 :: (digits ++ rest))

/-- Dotted numbers, and perhaps a qualifier behind its sign. -/
def Tail (text : Text) : Prop :=
  ∃ groups qualifier, text = groups ++ qualifier ∧ Dotted groups ∧
    (qualifier = [] ∨ ∃ c w, qualifier = c :: w ∧ c ∈ lit "-+." ∧ w ≠ [] ∧
      ∀ d ∈ w, isQualifierUnit d = true)

theorem isQualifierUnit_of_isDigit {c : ℕ} (h : isDigit c = true) : isQualifierUnit c = true := by
  simp [isQualifierUnit, isWord, h]

theorem Dotted.units {text : Text} (h : Dotted text) : ∀ c ∈ text, isDigit c = true ∨ c = 46 := by
  induction h with
  | nil => simp
  | cons _ hdigits _ ih =>
    intro c hc
    rw [List.mem_cons, List.mem_append] at hc
    rcases hc with rfl | hc | hc
    · exact .inr rfl
    · exact .inl (hdigits c hc)
    · exact ih c hc

theorem Dotted.plus_not_mem {text : Text} (h : Dotted text) : 43 ∉ text :=
  fun hmem => absurd (h.units 43 hmem) (by decide)

theorem Tail.units {text : Text} (h : Tail text) :
    ∀ c ∈ text, isQualifierUnit c = true ∨ c = 43 := by
  obtain ⟨groups, qualifier, rfl, hgroups, hqualifier⟩ := h
  intro c hc
  rcases List.mem_append.mp hc with hc | hc
  · rcases hgroups.units c hc with h | rfl
    · exact .inl (isQualifierUnit_of_isDigit h)
    · exact .inl (by decide)
  · rcases hqualifier with rfl | ⟨d, w, rfl, hd, -, hw⟩
    · cases hc
    · rcases List.mem_cons.mp hc with rfl | hc
      · have hsigns : ∀ c ∈ lit "-+.", isQualifierUnit c = true ∨ c = 43 := by decide
        exact hsigns c hd
      · exact .inl (hw c hc)

theorem Tail.head_not_digit {text : Text} (h : Tail text) :
    ∀ c ∈ text.head?, isDigit c = false := by
  obtain ⟨groups, qualifier, rfl, hgroups, hqualifier⟩ := h
  cases hgroups with
  | nil =>
    rcases hqualifier with rfl | ⟨d, w, rfl, hd, -, -⟩
    · simp
    · have hsigns : ∀ c ∈ lit "-+.", isDigit c = false := by decide
      intro c hc
      obtain rfl : d = c := by simpa using hc
      exact hsigns d hd
  | cons =>
    intro c hc
    obtain rfl : 46 = c := by simpa using hc
    decide

theorem tail_of_units {w : Text} (hne : w ≠ []) (h : ∀ c ∈ w, isQualifierUnit c = true) :
    Tail (46 :: w) :=
  ⟨[], 46 :: w, rfl, .nil, .inr ⟨46, w, rfl, by decide, hne, h⟩⟩

/-- In front of a build there are only numbers. -/
theorem Tail.dotted {front build : Text} (h : Tail (front ++ 43 :: build)) (hfront : 43 ∉ front) :
    Dotted front := by
  obtain ⟨groups, qualifier, heq, hgroups, hqualifier⟩ := h
  rcases hqualifier with rfl | ⟨c, w, rfl, -, -, hw⟩
  · rw [List.append_nil] at heq
    exact absurd (heq ▸ List.mem_append_right _ List.mem_cons_self) hgroups.plus_not_mem
  · by_cases hc : c = 43
    · subst hc
      rw [(cut_unique heq hfront hgroups.plus_not_mem).1]
      exact hgroups
    · exfalso
      have hmem : 43 ∈ groups ++ c :: w := heq ▸ List.mem_append_right _ List.mem_cons_self
      rcases List.mem_append.mp hmem with hmem | hmem
      · exact hgroups.plus_not_mem hmem
      · rcases List.mem_cons.mp hmem with rfl | hmem
        · exact hc rfl
        · exact absurd (hw 43 hmem) (by decide)

theorem Tail.breaks_eq_nil {front rest : Text} (h : Tail (front ++ rest)) (hrest : Breaks rest) :
    rest = [] := by
  cases rest with
  | nil => rfl
  | cons c rest =>
    have hunit := h.units c (List.mem_append_right _ List.mem_cons_self)
    rcases hrest c rfl with rfl | rfl <;> exact absurd hunit (by decide)

theorem digits_decimal (n : ℕ) : ∀ c ∈ decimal n, isDigit c = true := by
  intro c hc
  have hdigit := decimal_digit hc
  simp only [isDigit, Bool.and_eq_true, decide_eq_true_eq]
  omega

theorem Part.text_ne_nil (part : Part) : part.text ≠ [] := by
  cases part with
  | number n => exact decimal_ne_nil n
  | wildcard => exact List.cons_ne_nil _ _

theorem Part.units_iff {part : Part} :
    (∀ c ∈ part.text, isQualifierUnit c = true ∨ c = 43) ↔ part.IsWord := by
  cases part with
  | number n =>
    exact iff_of_true
      (fun c hc => .inl (isQualifierUnit_of_isDigit (digits_decimal n c hc))) trivial
  | wildcard sign h =>
    have hall : ∀ sign ∈ lit "xX*", (isQualifierUnit sign = true ∨ sign = 43) ↔
      sign ≠ 42 := by decide
    rw [IsWord, ← hall sign h]
    exact ⟨fun hunits => hunits sign (List.mem_singleton_self sign),
      fun hsign c hc => List.mem_singleton.mp hc ▸ hsign⟩

theorem Part.plus_not_mem (part : Part) : 43 ∉ part.text := by
  cases part with
  | number n => exact fun h => absurd (digits_decimal n 43 h) (by decide)
  | wildcard sign h =>
    intro hmem
    obtain rfl : 43 = sign := List.mem_singleton.mp hmem
    exact absurd h (by decide)

theorem Part.IsWord.units {part : Part} (h : part.IsWord) :
    ∀ c ∈ part.text, isQualifierUnit c = true := by
  intro c hc
  rcases units_iff.mpr h c hc with hunit | rfl
  · exact hunit
  · exact absurd hc part.plus_not_mem

/-- Of the parts only a number is digits and dots. -/
theorem Part.isNumber_of_units {part : Part} (h : ∀ c ∈ part.text, isDigit c = true ∨ c = 46) :
    part.IsNumber := by
  cases part with
  | number n => exact trivial
  | wildcard sign hsign =>
    have hall : ∀ sign ∈ lit "xX*", ¬(isDigit sign = true ∨ sign = 46) := by decide
    exact absurd (h sign (List.mem_singleton_self sign)) (hall sign hsign)

theorem Identifiers.units_text (identifiers : Identifiers) :
    ∀ c ∈ identifiers.text, isQualifierUnit c = true := by
  intro c hc
  rw [text] at hc
  rcases FormEncoding.mem_join hc with hc | ⟨word, hword, hc⟩
  · obtain rfl : c = 46 := List.mem_singleton.mp hc
    decide
  · have hunit := (identifiers.units word hword).2 c hc
    simp only [isQualifierUnit, isWord, Bool.or_eq_true, decide_eq_true_eq]
    tauto

theorem Identifiers.text_ne_nil (identifiers : Identifiers) : identifiers.text ≠ [] := by
  obtain ⟨word, hword⟩ := List.exists_mem_of_ne_nil _ identifiers.words_ne_nil
  obtain ⟨c, hc⟩ := List.exists_mem_of_ne_nil _ (identifiers.units word hword).1
  exact List.ne_nil_of_mem (FormEncoding.mem_join_of_mem hword hc)

theorem units_labelled {sign : String} (hsign : ∀ c ∈ lit sign, isQualifierUnit c = true)
    (identifiers : Option Identifiers) :
    ∀ c ∈ labelled sign identifiers, isQualifierUnit c = true := by
  cases identifiers with
  | none => exact fun c hc => absurd hc List.not_mem_nil
  | some identifiers =>
    intro c hc
    exact (List.mem_append.mp hc).elim (hsign c) (identifiers.units_text c)

/-- The two further parts and a prerelease. -/
def Version.front (second third : Part) (prerelease : Option Identifiers) : Text :=
  lit "." ++ second.text ++ lit "." ++ third.text ++ labelled "-" prerelease

theorem Version.plus_not_mem_front (second third : Part) (prerelease : Option Identifiers) :
    43 ∉ front second third prerelease := by
  have hlabel : 43 ∉ labelled "-" prerelease :=
    fun h => absurd (units_labelled (by decide) prerelease 43 h) (by decide)
  simp only [front, List.mem_append, not_or]
  exact ⟨⟨⟨⟨by decide, second.plus_not_mem⟩, by decide⟩, third.plus_not_mem⟩, hlabel⟩

/-- In front of a build nothing but numbers is recognised. -/
theorem Version.dotted_front_iff {second third : Part} {prerelease : Option Identifiers} :
    Dotted (front second third prerelease) ↔
      prerelease = none ∧ second.IsNumber ∧ third.IsNumber := by
  constructor
  · intro h
    have hunits := h.units
    simp only [front, List.mem_append] at hunits
    refine ⟨?_, Part.isNumber_of_units fun c hc => hunits c (by tauto),
      Part.isNumber_of_units fun c hc => hunits c (by tauto)⟩
    cases prerelease with
    | none => rfl
    | some identifiers => exact absurd (hunits 45 (.inr (by simp [labelled, lit]))) (by decide)
  · rintro ⟨rfl, hsecond, hthird⟩
    cases second with
    | wildcard => exact hsecond.elim
    | number n =>
      cases third with
      | wildcard => exact hthird.elim
      | number k =>
        have h := Dotted.cons (decimal_ne_nil n) (digits_decimal n)
          (.cons (decimal_ne_nil k) (digits_decimal k) .nil)
        simpa [front, Part.text, labelled, lit] using h

/-- A version with a minor part is recognised, with nothing behind it, when it is plainly
written. -/
theorem Version.tail_rest_iff {version : Version} {rest : Text} (hrest : Breaks rest) :
    Tail (version.rest ++ rest) ∧ version.rest ≠ [] ↔ rest = [] ∧ version.Plain := by
  constructor
  · rintro ⟨htail, hne⟩
    obtain rfl := htail.breaks_eq_nil hrest
    rw [List.append_nil] at htail
    refine ⟨rfl, ?_⟩
    have hunits := htail.units
    cases version with
    | major => exact hne rfl
    | minor first second =>
      exact Part.units_iff.mp fun c hc => hunits c (List.mem_append_right _ hc)
    | patch first second third prerelease build =>
      simp only [Version.rest, List.mem_append] at hunits
      refine ⟨Part.units_iff.mp fun c hc => hunits c (by tauto),
        Part.units_iff.mp fun c hc => hunits c (by tauto), ?_⟩
      cases build with
      | none => exact .inl rfl
      | some build =>
        exact .inr (dotted_front_iff.mp (htail.dotted (plus_not_mem_front second third prerelease)))
  · rintro ⟨rfl, hplain⟩
    rw [List.append_nil]
    cases version with
    | major => exact hplain.elim
    | minor first second =>
      exact ⟨tail_of_units second.text_ne_nil (Part.IsWord.units hplain), List.cons_ne_nil _ _⟩
    | patch first second third prerelease build =>
      obtain ⟨hsecond, hthird, hbuild⟩ := hplain
      refine ⟨?_, List.cons_ne_nil _ _⟩
      cases build with
      | none =>
        have hlabel : ∀ c ∈ labelled "-" prerelease, isQualifierUnit c = true :=
          units_labelled (by decide) prerelease
        refine tail_of_units (w := second.text ++ lit "." ++ third.text ++
          labelled "-" prerelease ++ [])
          (by simp [second.text_ne_nil]) ?_
        simp only [List.append_nil, List.mem_append]
        rintro c (((hc | hc) | hc) | hc)
        · exact hsecond.units c hc
        · obtain rfl : c = 46 := List.mem_singleton.mp hc
          decide
        · exact hthird.units c hc
        · exact hlabel c hc
      | some build =>
        obtain h | ⟨rfl, hnumbers⟩ := hbuild
        · cases h
        · refine ⟨front second third none, 43 :: build.text, rfl,
            dotted_front_iff.mpr ⟨rfl, hnumbers⟩, .inr ⟨43, build.text, rfl, by decide,
              build.text_ne_nil, build.units_text⟩⟩

/-! ### The expressions -/

section Expressions

open Regex

variable {b t : Text} {caps : Captures ℕ} {s s' : Cursor ℕ × Captures ℕ}

theorem isDigit_swapCase (c : ℕ) : isDigit (swapCase c) = isDigit c := by
  simp only [isDigit, swapCase, isUpper, isLower, Bool.and_eq_true, decide_eq_true_eq]
  split
  · rw [Bool.eq_iff_iff]
    simp only [Bool.and_eq_true, decide_eq_true_eq]
    omega
  · split
    · rw [Bool.eq_iff_iff]
      simp only [Bool.and_eq_true, decide_eq_true_eq]
      omega
    · rfl

theorem isQualifierUnit_swapCase (c : ℕ) : isQualifierUnit (swapCase c) = isQualifierUnit c := by
  rw [Bool.eq_iff_iff]
  simp only [isQualifierUnit, isWord, isLetter, isDigit, swapCase, isUpper, isLower,
    Bool.or_eq_true, Bool.and_eq_true, decide_eq_true_eq]
  split <;> try split
  all_goals omega

/-- A class that a change of case does not leave. -/
theorem ignoreCase_cls {p : ℕ → Bool} (h : ∀ c, p (swapCase c) = p c) :
    (Regex.cls p).ignoreCase = .cls p := by
  show Regex.cls (fun c => p c || p (swapCase c)) = .cls p
  congr 1
  funext c
  rw [h, Bool.or_self]

/-- A class of units that have no case. -/
theorem ignoreCase_chars {w : String} (h : ∀ d ∈ lit w, isLetter d = false) :
    (chars w).ignoreCase = chars w := by
  apply ignoreCase_cls
  intro c
  have hswap : ∀ d, isLetter (swapCase d) = isLetter d := by
    intro d
    rw [Bool.eq_iff_iff]
    simp only [isLetter, swapCase, isUpper, isLower, Bool.or_eq_true, Bool.and_eq_true,
      decide_eq_true_eq]
    split <;> try split
    all_goals omega
  by_cases hc : isLetter c = true
  · have hout : c ∉ lit w := fun hmem => absurd (h c hmem) (by simp [hc])
    have hout' : swapCase c ∉ lit w := fun hmem => absurd (h _ hmem) (by simp [hswap, hc])
    simp [hout, hout']
  · have hself : swapCase c = c := by
      simp only [isLetter, Bool.or_eq_true, not_or] at hc
      simp [swapCase, hc.1, hc.2]
    rw [hself]

theorem takes_dotted : (many (cat [.str ".", many1 .digit])).Takes (⟨b, t⟩, caps) s' ↔
    ∃ u v, t = u ++ v ∧ Dotted u ∧ s' = (⟨u.reverse ++ b, v⟩, caps) := by
  constructor
  · intro h
    have key : ∀ s : Cursor ℕ × Captures ℕ, (many (cat [.str ".", many1 .digit])).Takes s s' →
        ∃ u v, s.1.after = u ++ v ∧ Dotted u ∧ s' = (⟨u.reverse ++ s.1.before, v⟩, s.2) := by
      intro s h
      refine Relation.ReflTransGen.head_induction_on h ⟨[], _, rfl, .nil, rfl⟩ ?_
      rintro ⟨⟨b, t⟩, caps⟩ mid ⟨⟨_, hdot, hdigits⟩, -⟩ - ⟨u, v, hrest, hu, rfl⟩
      obtain ⟨rest, rfl, rfl⟩ := takes_units.mp hdot
      obtain ⟨digits, rest, rfl, hne, hall, rfl⟩ := takes_many1.mp hdigits
      obtain rfl : rest = u ++ v := hrest
      exact ⟨46 :: (digits ++ u), v, by simp [lit], .cons hne hall hu, by simp [lit]⟩
    exact key _ h
  · rintro ⟨u, v, rfl, hu, rfl⟩
    induction hu generalizing b with
    | nil => exact .refl
    | @cons digits rest hne hall hrest ih =>
      refine .head (b := (⟨digits.reverse ++ 46 :: b, rest ++ v⟩, caps)) ⟨?_, by simp⟩ ?_
      · exact ⟨_, takes_units.mpr ⟨digits ++ (rest ++ v), by simp [lit], rfl⟩,
          takes_many1.mpr ⟨digits, rest ++ v, rfl, hne, hall, rfl⟩⟩
      · have hend : (46 :: (digits ++ rest)).reverse ++ b =
          rest.reverse ++ (digits.reverse ++ 46 :: b) :=
          by simp
        rw [hend]
        exact ih

theorem ignoreCase_units {w : Text} (h : ∀ d ∈ w, isLetter d = false) :
    (units w).ignoreCase = units w := by
  induction w with
  | nil => rfl
  | cons d w ih =>
    have hd := h d List.mem_cons_self
    show (seq (Regex.cls fun x => x = d).ignoreCase (units w).ignoreCase) = _
    rw [ih fun e he => h e (List.mem_cons_of_mem _ he), ignoreCase_cls]
    · rfl
    · intro c
      rw [decide_eq_decide]
      simp only [isLetter, isUpper, isLower, Bool.or_eq_false_iff, Bool.and_eq_false_iff,
        decide_eq_false_iff_not] at hd
      simp only [swapCase, isUpper, isLower, Bool.and_eq_true, decide_eq_true_eq]
      split <;> try split
      all_goals omega

/-- The alternative of `DEPENDENCY_VALUE` for ranges. -/
def rangePattern : Regex ℕ :=
  .cat [.bol, .many (.chars "^~>=<v "), .many1 .digit, .many (.cat [.str ".", .many1 .digit]),
    .opt (.cat [.chars "-+.", .many1 (.cls fun c => isWord c || c = 46 || c = 45)]), .eol]

theorem ignoreCase_rangePattern : rangePattern.ignoreCase =
    .cat [.bol, .many (.cls fun c => isSign c || isSign (swapCase c)), .many1 .digit,
      .many (.cat [.str ".", .many1 .digit]),
      .opt (.cat [.chars "-+.", .many1 (.cls isQualifierUnit)]), .eol] := by
  show Regex.cat [.bol, .many (.cls fun c => isSign c || isSign (swapCase c)),
    .many1 (Regex.cls isDigit).ignoreCase,
    .many (.cat [(Regex.str ".").ignoreCase, .many1 (Regex.cls isDigit).ignoreCase]),
    .opt (.cat [(Regex.chars "-+.").ignoreCase, .many1 (Regex.cls isQualifierUnit).ignoreCase]),
    .eol] = _
  rw [ignoreCase_cls isDigit_swapCase, ignoreCase_cls isQualifierUnit_swapCase,
    ignoreCase_chars (by decide), Regex.str, ignoreCase_units (by decide)]
  rfl

theorem takes_rangePattern {text : Text} :
    (∃ x, rangePattern.ignoreCase.Takes (⟨[], text⟩, []) x) ↔
      ∃ signs digits rest, text = signs ++ (digits ++ rest) ∧
        (∀ c ∈ signs, (isSign c || isSign (swapCase c)) = true) ∧ digits ≠ [] ∧
        (∀ c ∈ digits, isDigit c = true) ∧ Tail rest := by
  rw [ignoreCase_rangePattern]
  constructor
  · rintro ⟨x, _, ⟨-, rfl⟩, _, h₁, _, h₂, _, h₃, _, h₄, hend, -⟩
    obtain ⟨signs, _, rfl, hsigns, rfl⟩ := takes_many.mp h₁
    obtain ⟨digits, _, rfl, hne, hdigits, rfl⟩ := takes_many1.mp h₂
    obtain ⟨groups, rest, rfl, hgroups, rfl⟩ := takes_dotted.mp h₃
    refine ⟨signs, digits, groups ++ rest, rfl, hsigns, hne, hdigits, groups, rest, rfl,
      hgroups, ?_⟩
    rcases takes_opt.mp h₄ with ⟨_, ⟨c, _, rfl, hc, rfl⟩, h₅⟩ | rfl
    · obtain ⟨w, v, rfl, hw, hunits, rfl⟩ := takes_many1.mp h₅
      obtain rfl : v = [] := hend
      rw [List.append_nil]
      exact .inr ⟨c, w, rfl, of_decide_eq_true hc, hw, hunits⟩
    · exact .inl hend
  · rintro ⟨signs, digits, _, rfl, hsigns, hne, hdigits, groups, qualifier, rfl, hgroups,
      hqualifier⟩
    refine ⟨(⟨qualifier.reverse ++
      (groups.reverse ++ (digits.reverse ++ (signs.reverse ++ []))), []⟩,
      []), _, ⟨rfl, rfl⟩, _, takes_many.mpr ⟨signs, _, rfl, hsigns, rfl⟩, _,
      takes_many1.mpr ⟨digits, _, rfl, hne, hdigits, rfl⟩, _,
      takes_dotted.mpr ⟨groups, qualifier, rfl, hgroups, rfl⟩, _, takes_opt.mpr ?_, rfl, rfl⟩
    rcases hqualifier with rfl | ⟨c, w, rfl, hc, hw, hunits⟩
    · exact .inr rfl
    · refine .inl ⟨_, ⟨c, w, rfl, decide_eq_true hc, rfl⟩,
        takes_many1.mpr ⟨w, [], ?_, hw, hunits, ?_⟩⟩
      · rw [List.append_nil]
      · simp

/-- What a text of signs and a number can begin with. -/
def isFront (c : ℕ) : Bool := isSign c || c = 124 || isDigit c

theorem not_front_of_letter {c d : ℕ} (hd : isFront d = true) (hc : c ∈ lit "wnflpgh*") :
    ¬(d = c ∨ swapCase d = c) := by
  have hall : ∀ d < 128, isFront d = true → d ∉ lit "wnflpgh*" ∧ swapCase d ∉ lit "wnflpgh*" := by
    decide +kernel
  have hsigns : ∀ c ∈ lit "^~>=<v ", c < 128 := by decide
  have hsmall : d < 128 := by
    simp only [isFront, isSign, isDigit, Bool.or_eq_true, Bool.and_eq_true, decide_eq_true_eq] at hd
    rcases hd with (hd | hd) | hd
    · exact hsigns d hd
    · omega
    · omega
  rintro (rfl | rfl)
  · exact (hall d hsmall hd).1 hc
  · exact (hall d hsmall hd).2 hc

/-- A literal does not begin where such a text does. -/
theorem not_takes_literal {c : ℕ} {w : Text} (ht : ∀ d ∈ t.head?, isFront d = true)
    (hc : c ∈ lit "wnflpgh*") : ¬(units (c :: w)).ignoreCase.Takes (⟨b, t⟩, caps) s' := by
  rintro ⟨_, ⟨d, rest, rfl, hd, -⟩, -⟩
  exact not_front_of_letter (ht d rfl) hc (by simpa using hd)

theorem isDigit_of_isSign {c : ℕ} (h : (isSign c || isSign (swapCase c)) = true ∨ c = 124) :
    isDigit c = false := by
  have hsigns : ∀ c ∈ lit "^~>=<v ", isDigit c = false := by decide
  rcases h with h | rfl
  · rcases Bool.or_eq_true _ _ ▸ h with h | h
    · exact hsigns c (of_decide_eq_true h)
    · rw [← isDigit_swapCase]
      exact hsigns _ (of_decide_eq_true h)
  · decide

end Expressions

theorem head_isDigit {digits rest : Text} (hne : digits ≠ [])
    (hdigits : ∀ c ∈ digits, isDigit c = true) :
    ∀ c ∈ (digits ++ rest).head?, (!isDigit c) = false := by
  intro c hc
  obtain ⟨d, digits, rfl⟩ := List.exists_cons_of_ne_nil hne
  obtain rfl : d = c := by simpa using hc
  rw [hdigits d List.mem_cons_self]
  rfl

section Recognised

open Regex

variable {signs digits rest : Text} (hsigns : ∀ c ∈ signs, isSign c = true ∨ c = 124)
  (hne : digits ≠ []) (hdigits : ∀ c ∈ digits, isDigit c = true)

include hsigns

theorem signs_not_digit : ∀ c ∈ signs, isDigit c = false := by
  intro c hc
  exact isDigit_of_isSign ((hsigns c hc).imp_left fun h => by rw [h, Bool.true_or])

include hne hdigits

theorem front_head : ∀ c ∈ (signs ++ (digits ++ rest)).head?, isFront c = true := by
  intro c hc
  cases signs with
  | nil =>
    obtain ⟨d, digits, rfl⟩ := List.exists_cons_of_ne_nil hne
    obtain rfl : d = c := by simpa using hc
    simp [isFront, hdigits d List.mem_cons_self]
  | cons d signs =>
    obtain rfl : d = c := by simpa using hc
    rcases hsigns d List.mem_cons_self with h | rfl
    · simp [isFront, h]
    · decide

/-- The words of `[a-z-]+/[a-z-]+#` do not reach past the signs. -/
theorem not_takes_repository {x : Cursor ℕ × Captures ℕ} :
    ¬(Regex.cat [.many1 lowerOrDash, .str "/", .many1 lowerOrDash, .str "#"]).ignoreCase.Takes
      (⟨[], signs ++ (digits ++ rest)⟩, []) x := by
  rintro ⟨_, hwords, _, hslash, -⟩
  rw [Regex.str, ignoreCase_units (by decide)] at hslash
  obtain ⟨words, _, heq, -, hletters, rfl⟩ := takes_many1.mp hwords
  obtain ⟨tail, rfl, -⟩ := takes_units.mp hslash
  -- the slash stands in front of the first digit, and is no sign
  have hnone : ∀ c ∈ words ++ lit "/", isDigit c = false := by
    intro c hc
    rcases List.mem_append.mp hc with hc | hc
    · have hletter := hletters c hc
      simp only [swapCase, isUpper, isLower, Bool.or_eq_true, Bool.and_eq_true,
        decide_eq_true_eq] at hletter
      simp only [isDigit, Bool.and_eq_false_iff, decide_eq_false_iff_not]
      split at hletter <;> try split at hletter
      all_goals omega
    · obtain rfl := List.mem_singleton.mp hc
      decide
  have hmem : 47 ∈ signs := by
    rw [← List.append_assoc words] at heq
    rcases List.append_eq_append_iff.mp heq with ⟨more, hmore, hrest⟩ | ⟨more, hmore, -⟩
    · cases more with
      | nil =>
        rw [List.append_nil] at hmore
        rw [← hmore]
        simp [lit]
      | cons c more =>
        obtain ⟨d, digits, rfl⟩ := List.exists_cons_of_ne_nil hne
        obtain rfl : d = c := (List.cons.inj hrest).1
        have hfalse := hnone d (hmore ▸ List.mem_append_right _ List.mem_cons_self)
        rw [hdigits d List.mem_cons_self] at hfalse
        cases hfalse
    · rw [hmore]
      simp [lit]
  exact absurd (hsigns 47 hmem) (by decide)

/-- **A text of signs and a number** is recognised when there is no bar among the signs and the rest
is dotted numbers and a qualifier. -/
theorem test_dependencyValue_iff (hrest : ∀ c ∈ rest.head?, isDigit c = false) :
    dependencyValue.test (signs ++ (digits ++ rest)) = true ↔
      (∀ c ∈ signs, isSign c = true) ∧ Tail rest := by
  have hfront : ∀ c ∈ (signs ++ (digits ++ rest)).head?, isFront c = true :=
    front_head hsigns hne hdigits
  have hstart : ∀ {c w b caps s'}, c ∈ lit "wnflpgh*" →
      ¬(units (c :: w)).ignoreCase.Takes (⟨b, signs ++ (digits ++ rest)⟩, caps) s' :=
    fun hc => not_takes_literal hfront hc
  rw [test_iff]
  constructor
  · rintro ⟨u, v, hsplit, x, h⟩
    have hbegin : u = [] := by
      rcases h with ⟨_, ⟨hb, -⟩, -⟩ | ⟨_, ⟨hb, -⟩, -⟩ | ⟨_, ⟨hb, -⟩, -⟩ | ⟨_, ⟨hb, -⟩, -⟩
      all_goals exact List.reverse_eq_nil_iff.mp hb
    subst hbegin
    rw [List.nil_append] at hsplit
    subst hsplit
    rcases h with ⟨_, ⟨-, rfl⟩, h⟩ | h | ⟨_, ⟨-, rfl⟩, _, h, -⟩ | ⟨_, ⟨-, rfl⟩, _, h, -⟩
    · -- a protocol, or a repository
      rcases h with h | h | h | h | h | h | h | h | ⟨_, h, -⟩ | h
      · exact absurd h (hstart (c := 119) (by decide))
      · exact absurd h (hstart (c := 110) (by decide))
      · exact absurd h (hstart (c := 102) (by decide))
      · exact absurd h (hstart (c := 108) (by decide))
      · exact absurd h (hstart (c := 112) (by decide))
      · exact absurd h (hstart (c := 112) (by decide))
      · exact absurd h (hstart (c := 103) (by decide))
      · exact absurd h (hstart (c := 103) (by decide))
      · exact absurd h (hstart (c := 104) (by decide))
      · exact absurd h (not_takes_repository hsigns hne hdigits)
    · obtain ⟨signs', digits', rest', heq, hsigns', hne', hdigits', htail⟩ :=
        takes_rangePattern.mp ⟨x, h⟩
      have hnot : ∀ c ∈ signs', isDigit c = false :=
        fun c hc => isDigit_of_isSign (.inl (hsigns' c hc))
      obtain ⟨rfl, hlater⟩ := Splitting.span_unique (p := fun c => !isDigit c) heq
        (fun c hc => by rw [signs_not_digit hsigns c hc]; rfl) (head_isDigit hne hdigits)
        (fun c hc => by rw [hnot c hc]; rfl) (head_isDigit hne' hdigits')
      obtain ⟨rfl, rfl⟩ := Splitting.span_unique hlater hdigits hrest hdigits' htail.head_not_digit
      refine ⟨fun c hc => (hsigns c hc).resolve_right ?_, htail⟩
      rintro rfl
      exact absurd (hsigns' 124 hc) (by decide)
    · exact absurd h (hstart (c := 42) (by decide))
    · exact absurd h (hstart (c := 108) (by decide))
  · rintro ⟨hall, htail⟩
    obtain ⟨x, hx⟩ := takes_rangePattern.mpr ⟨signs, digits, rest, rfl,
      fun c hc => by rw [hall c hc, Bool.true_or], hne, hdigits, htail⟩
    exact ⟨[], _, rfl, x, .inr (.inl hx)⟩

omit hsigns in
/-- The leading number is the first that has a dot behind it. -/
theorem leadingMajor_eq (hsigns : ∀ c ∈ signs, isDigit c = false) :
    leadingMajor (signs ++ (digits ++ 46 :: rest)) = some digits := by
  have htakes : majorVersion.Takes (⟨signs.reverse, digits ++ 46 :: rest⟩, [])
      (⟨46 :: (digits.reverse ++ signs.reverse), rest⟩, [(0 + 1, digits)]) := by
    refine ⟨_, takes_group.mpr ⟨_, takes_many1.mpr ⟨digits, _, rfl, hne, hdigits, rfl⟩, rfl⟩,
      takes_units.mpr ⟨rest, rfl, ?_⟩⟩
    simp [lit]
  cases hx : majorVersion.exec (signs ++ (digits ++ 46 :: rest)) with
  | none => exact absurd hx (exec_ne_none htakes)
  | some x =>
    obtain ⟨u, v, hsplit, hrun, hfirst⟩ := exec_spec hx
    obtain ⟨_, hgroup, hdot⟩ := takes_of_run_done hrun
    obtain ⟨_, h₁, rfl⟩ := takes_group.mp hgroup
    obtain ⟨digits', _, rfl, hne', hdigits', rfl⟩ := takes_many1.mp h₁
    obtain ⟨rest', rfl, rfl⟩ := takes_units.mp hdot
    have hle : u.length ≤ signs.length :=
      Nat.le_of_not_lt fun hlt => hfirst signs _ rfl hlt _ htakes
    -- the match begins at the first digit
    have hsame : u = signs := by
      rcases List.append_eq_append_iff.mp hsplit with ⟨more, rfl, -⟩ | ⟨more, rfl, hmore⟩
      · rw [List.length_append] at hle
        rw [List.length_eq_zero_iff.mp (by omega : more.length = 0), List.append_nil]
      · cases more with
        | nil => rw [List.append_nil]
        | cons c more =>
          obtain ⟨d, digits', rfl⟩ := List.exists_cons_of_ne_nil hne'
          obtain rfl : d = c := (List.cons.inj hmore).1
          have hfalse := hsigns d (by simp)
          rw [hdigits' d List.mem_cons_self] at hfalse
          cases hfalse
    subst hsame
    have hdot : ∀ rest : Text, ∀ c ∈ (46 :: rest).head?, isDigit c = false := by
      intro rest c hc
      obtain rfl : 46 = c := by simpa using hc
      decide
    obtain ⟨rfl, -⟩ :=
      Splitting.span_unique (List.append_cancel_left hsplit) hdigits (hdot _) hdigits' (hdot _)
    rw [leadingMajor, capture_of_exec hx]
    exact congrArg some (take_consumed digits (lit "." ++ rest'))

end Recognised

open Regex in
/-- A text without a dot has no leading number. -/
theorem leadingMajor_eq_none {text : Text} (h : 46 ∉ text) : leadingMajor text = none := by
  have hexec : majorVersion.exec text = none := by
    by_contra hne
    obtain ⟨x, hx⟩ := Option.ne_none_iff_exists'.mp hne
    obtain ⟨u, v, rfl, hrun, -⟩ := exec_spec hx
    obtain ⟨_, hgroup, hdot⟩ := takes_of_run_done hrun
    obtain ⟨_, h₁, rfl⟩ := takes_group.mp hgroup
    obtain ⟨digits, _, rfl, -, -, rfl⟩ := takes_many1.mp h₁
    obtain ⟨rest, rfl, -⟩ := takes_units.mp hdot
    exact h (by simp [lit])
  rw [leadingMajor, capture, hexec]
  rfl

theorem Version.rest_eq_nil_or (version : Version) :
    version.rest = [] ∨ ∃ more, version.rest = 46 :: more := by
  cases version with
  | major => exact .inl rfl
  | minor => exact .inr ⟨_, rfl⟩
  | patch => exact .inr ⟨_, rfl⟩

/-- **The ranges that are recognised and give a number** are those of one comparator, plainly
written. -/
theorem RangeSet.recognised_iff {range : RangeSet} {m : ℕ} (h : range.leading = some m) :
    dependencyValue.test range.text = true ∧ leadingMajor range.text ≠ none ↔ range.Plain := by
  obtain ⟨signs, version, rest, htext, hbreaks, hsigns, hplain⟩ := exists_leading h
  have hhead : ∀ c ∈ (version.rest ++ rest).head?, isDigit c = false := by
    intro c hc
    rcases version.rest_eq_nil_or with hnil | ⟨more, hmore⟩
    · rw [hnil] at hc
      rcases hbreaks c hc with rfl | rfl <;> decide
    · rw [hmore] at hc
      obtain rfl : 46 = c := by simpa using hc
      decide
  rw [hplain, htext, test_dependencyValue_iff hsigns (decimal_ne_nil m) (digits_decimal m) hhead]
  constructor
  · rintro ⟨⟨hall, htail⟩, hmajor⟩
    refine ⟨hall, (Version.tail_rest_iff hbreaks).mp ⟨htail, fun hnil => hmajor ?_⟩⟩
    rw [hnil, List.nil_append] at htail ⊢
    obtain rfl : rest = [] := @Tail.breaks_eq_nil [] rest htail hbreaks
    apply leadingMajor_eq_none
    rw [List.append_nil, List.mem_append, not_or]
    exact ⟨fun hc => absurd (hall 46 hc) (by decide),
      fun hc => absurd (digits_decimal m 46 hc) (by decide)⟩
  · rintro ⟨hall, hnil, hversion⟩
    obtain ⟨htail, hne⟩ := (Version.tail_rest_iff hbreaks).mpr ⟨hnil, hversion⟩
    refine ⟨⟨hall, htail⟩, ?_⟩
    obtain ⟨more, hmore⟩ := version.rest_eq_nil_or.resolve_left hne
    rw [hmore, List.cons_append, leadingMajor_eq (decimal_ne_nil m) (digits_decimal m)
      (signs_not_digit hsigns)]
    exact Option.some_ne_none _

theorem RangeSet.leadingMajor_text {range : RangeSet} {m : ℕ} (h : range.leading = some m)
    (hplain : range.Plain) : leadingMajor range.text = some (decimal m) := by
  obtain ⟨signs, version, rest, htext, hbreaks, hsigns, hiff⟩ := exists_leading h
  obtain ⟨-, hnil, hversion⟩ := hiff.mp hplain
  obtain ⟨-, hne⟩ := (Version.tail_rest_iff hbreaks).mpr ⟨hnil, hversion⟩
  obtain ⟨more, hmore⟩ := version.rest_eq_nil_or.resolve_left hne
  rw [htext, hmore, List.cons_append, leadingMajor_eq (decimal_ne_nil m) (digits_decimal m)
    (signs_not_digit hsigns)]

end Semver

end Newsdeck.Loop

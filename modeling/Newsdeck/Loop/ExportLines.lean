import Newsdeck.Ecma.Derivations
import Newsdeck.Library.Splitting
import Newsdeck.Loop.Detect

/-!
# What a line exports

The four shapes in which `extractExportedNames` finds names on a line, in words: a declaration, a
default export, a brace list, and a member of a list on a line of its own.

* `Worded.prefix_of_append_eq` — a text begins with words in one way only;
* `capture_declaration_iff`, `capture_default_iff` — what the two anchored patterns capture;
* `mem_lineExports_iff` — the names found on a line are those it names in one of the shapes.
-/

namespace Newsdeck.Loop

open Ecma Splitting

/-! ### Words and whitespace -/

/-- Whitespace, or nothing. -/
def Spaces (text : Text) : Prop := ∀ c ∈ text, isSpace c = true

/-- The text does not begin with whitespace. -/
def Solid (text : Text) : Prop := ∀ c ∈ text.head?, isSpace c = false

/-- Words, each with whitespace behind it. -/
inductive Worded : List Text → Text → Prop
  | nil : Worded [] []
  | cons {word words gap text} (hgap : gap ≠ []) (hspaces : Spaces gap) (rest : Worded words text) :
      Worded (word :: words) (word ++ gap ++ text)

/-- A word in front of whitespace is where the whitespace begins. -/
theorem word_unique {word word' gap gap' text text' : Text}
    (h : word ++ gap ++ text = word' ++ gap' ++ text')
    (hword : ∀ c ∈ word, isSpace c = false) (hword' : ∀ c ∈ word', isSpace c = false)
    (hgap : gap ≠ []) (hspaces : Spaces gap) (hgap' : gap' ≠ []) (hspaces' : Spaces gap')
    (htext : Solid text) (htext' : Solid text') : word = word' ∧ gap = gap' ∧ text = text' := by
  have hstart : ∀ {gap text : Text}, gap ≠ [] → Spaces gap →
      ∀ c ∈ (gap ++ text).head?, (!isSpace c) = false := by
    intro gap text hne hspaces c hc
    obtain ⟨d, gap, rfl⟩ := List.exists_cons_of_ne_nil hne
    obtain rfl : d = c := by simpa using hc
    simp [hspaces d List.mem_cons_self]
  rw [List.append_assoc, List.append_assoc] at h
  obtain ⟨rfl, hrest⟩ := span_unique (p := fun c => !isSpace c) h (by simpa using hword)
    (hstart hgap hspaces) (by simpa using hword') (hstart hgap' hspaces')
  obtain ⟨rfl, rfl⟩ := span_unique hrest hspaces htext hspaces' htext'
  exact ⟨rfl, rfl, rfl⟩

theorem Worded.solid_append {words : List Text} {text rest : Text} (h : Worded words text)
    (hwords : ∀ word ∈ words, word ≠ [] ∧ ∀ c ∈ word, isSpace c = false) (hrest : Solid rest) :
    Solid (text ++ rest) := by
  cases h with
  | nil => exact hrest
  | @cons word words gap text hgap hspaces hworded =>
    obtain ⟨hne, hsolid⟩ := hwords word List.mem_cons_self
    obtain ⟨c, word, rfl⟩ := List.exists_cons_of_ne_nil hne
    intro d hd
    obtain rfl : c = d := by simpa using hd
    exact hsolid _ List.mem_cons_self

/-- One reading of a text as words and a rest goes on where the other stops. -/
theorem Worded.prefix_of_append_eq {words words' : List Text} {text text' rest rest' : Text}
    (h : Worded words text) (h' : Worded words' text') (heq : text ++ rest = text' ++ rest')
    (hwords : ∀ word ∈ words, word ≠ [] ∧ ∀ c ∈ word, isSpace c = false)
    (hwords' : ∀ word ∈ words', word ≠ [] ∧ ∀ c ∈ word, isSpace c = false)
    (hrest : Solid rest) (hrest' : Solid rest') :
    words = words' ∧ rest = rest' ∨
      (∃ word more, words' = words ++ word :: more) ∨
        ∃ word more, words = words' ++ word :: more := by
  induction h generalizing words' text' with
  | nil =>
    cases h' with
    | nil => exact .inl ⟨rfl, heq⟩
    | cons => exact .inr (.inl ⟨_, _, rfl⟩)
  | @cons word words gap text hgap hspaces hworded ih =>
    cases h' with
    | nil => exact .inr (.inr ⟨_, _, rfl⟩)
    | @cons word' words' gap' text' hgap' hspaces' hworded' =>
      have hlater := fun w hw => hwords w (List.mem_cons_of_mem _ hw)
      have hlater' := fun w hw => hwords' w (List.mem_cons_of_mem _ hw)
      rw [List.append_assoc, List.append_assoc (word' ++ gap')] at heq
      obtain ⟨rfl, rfl, htexts⟩ := word_unique heq (hwords word List.mem_cons_self).2
        (hwords' word' List.mem_cons_self).2 hgap hspaces hgap' hspaces'
        (hworded.solid_append hlater hrest) (hworded'.solid_append hlater' hrest')
      rcases ih hworded' htexts hlater hlater' with
        ⟨rfl, rfl⟩ | ⟨w, more, rfl⟩ | ⟨w, more, rfl⟩
      · exact .inl ⟨rfl, rfl⟩
      · exact .inr (.inl ⟨w, more, rfl⟩)
      · exact .inr (.inr ⟨w, more, rfl⟩)

theorem Worded.append {words words' : List Text} {text text' : Text} (h : Worded words text)
    (h' : Worded words' text') : Worded (words ++ words') (text ++ text') := by
  induction h with
  | nil => exact h'
  | cons hgap hspaces _ ih =>
    rw [List.append_assoc]
    exact .cons hgap hspaces ih

theorem Worded.split {words words' : List Text} {text : Text} (h : Worded (words ++ words') text) :
    ∃ u u', text = u ++ u' ∧ Worded words u ∧ Worded words' u' := by
  induction words generalizing text with
  | nil => exact ⟨[], text, rfl, .nil, h⟩
  | cons word words ih =>
    cases h with
    | cons hgap hspaces hrest =>
      obtain ⟨u, u', rfl, hu, hu'⟩ := ih hrest
      exact ⟨_, u', (List.append_assoc ..).symm, .cons hgap hspaces hu, hu'⟩

theorem Worded.singleton_inv {word text : Text} (h : Worded [word] text) :
    ∃ gap, text = word ++ gap ∧ gap ≠ [] ∧ Spaces gap := by
  cases h with
  | cons hgap hspaces hrest =>
    cases hrest
    exact ⟨_, List.append_nil _, hgap, hspaces⟩

/-- The units an identifier begins with, and those it goes on with. -/
def isNameStart (c : ℕ) : Bool := isLetter c || c = 95 || c = 36
def isNameUnit (c : ℕ) : Bool := isWord c || c = 36

theorem isNameUnit_of_start {c : ℕ} (h : isNameStart c = true) : isNameUnit c = true := by
  simp only [isNameStart, isNameUnit, isWord, Bool.or_eq_true, decide_eq_true_eq] at h ⊢
  tauto

theorem not_space_of_nameUnit {c : ℕ} (h : isNameUnit c = true) : isSpace c = false := by
  simp only [isNameUnit, isWord, isLetter, isUpper, isLower, isDigit, Bool.or_eq_true,
    Bool.and_eq_true, decide_eq_true_eq] at h
  simp only [isSpace, Bool.or_eq_false_iff, Bool.and_eq_false_iff, decide_eq_false_iff_not]
  omega

/-- An identifier. -/
def IsName (name : Text) : Prop :=
  ∃ c rest, name = c :: rest ∧ isNameStart c = true ∧ ∀ d ∈ rest, isNameUnit d = true

/-- An identifier ends here. -/
def NameEnds (after : Text) : Prop := ∀ c ∈ after.head?, isNameUnit c = false

theorem IsName.units {name : Text} (h : IsName name) : ∀ c ∈ name, isNameUnit c = true := by
  obtain ⟨c, rest, rfl, hc, hrest⟩ := h
  intro d hd
  rcases List.mem_cons.mp hd with rfl | hd
  · exact isNameUnit_of_start hc
  · exact hrest d hd

theorem IsName.solid {name : Text} (h : IsName name) (after : Text) : Solid (name ++ after) := by
  have hunits := h.units
  obtain ⟨c, rest, rfl, -, -⟩ := h
  intro d hd
  obtain rfl : c = d := by simpa using hd
  exact not_space_of_nameUnit (hunits _ List.mem_cons_self)

theorem name_unique {name after name' after' : Text} (h : name ++ after = name' ++ after')
    (hname : IsName name) (hafter : NameEnds after) (hname' : IsName name')
    (hafter' : NameEnds after') : name = name' :=
  (span_unique h hname.units hafter hname'.units hafter').1

/-! ### Declarations -/

def exportModifiers : List (List Text) :=
  [[], [lit "declare"], [lit "async"], [lit "declare", lit "async"]]

def exportKeywords : List Text :=
  [lit "const", lit "let", lit "var", lit "function", lit "class", lit "interface", lit "type",
    lit "enum"]

/-- The line declares and exports the name: `export`, modifiers, a keyword and the name. -/
def Declares (line name : Text) : Prop :=
  ∃ indent modifiers keyword head after, Spaces indent ∧ modifiers ∈ exportModifiers ∧
    keyword ∈ exportKeywords ∧ Worded (lit "export" :: (modifiers ++ [keyword])) head ∧
    IsName name ∧ NameEnds after ∧ line = indent ++ (head ++ (name ++ after))

theorem exportWords_solid {modifiers : List Text} {keyword : Text}
    (hmodifiers : modifiers ∈ exportModifiers) (hkeyword : keyword ∈ exportKeywords) :
    ∀ word ∈ lit "export" :: (modifiers ++ [keyword]), word ≠ [] ∧
      ∀ c ∈ word, isSpace c = false := by
  have hall : ∀ modifiers ∈ exportModifiers, ∀ keyword ∈ exportKeywords,
      ∀ word ∈ lit "export" :: (modifiers ++ [keyword]),
        word ≠ [] ∧ ∀ c ∈ word, isSpace c = false := by decide
  exact hall _ hmodifiers _ hkeyword

/-- The keyword is the first word that is not in front of one. -/
theorem keyword_not_mem {modifiers modifiers' : List Text} {keyword : Text}
    (hmodifiers : modifiers ∈ exportModifiers) (hkeyword : keyword ∈ exportKeywords)
    {keyword' word : Text} {more : List Text} (h : lit "export" :: (modifiers ++ [keyword']) =
      lit "export" :: (modifiers' ++ [keyword]) ++ word :: more) : False := by
  have hmem : keyword ∈ modifiers := by
    have hlast := congrArg List.dropLast (List.cons.inj h).2
    rw [List.dropLast_concat] at hlast
    rw [hlast]
    show keyword ∈ (modifiers' ++ [keyword] ++ word :: more).dropLast
    rw [List.dropLast_append_of_ne_nil (List.cons_ne_nil _ _)]
    simp
  have hall : ∀ modifiers ∈ exportModifiers, ∀ keyword ∈ exportKeywords, keyword ∉ modifiers := by
    decide
  exact hall _ hmodifiers _ hkeyword hmem

/-- A line declares one name at most. -/
theorem Declares.unique {line name name' : Text} (h : Declares line name)
    (h' : Declares line name') :
    name = name' := by
  obtain ⟨indent, modifiers, keyword, head, after, hindent, hmodifiers, hkeyword, hhead, hname,
    hafter, rfl⟩ := h
  obtain ⟨indent', modifiers', keyword', head', after', hindent', hmodifiers', hkeyword', hhead',
    hname', hafter', heq⟩ := h'
  have hwords := exportWords_solid hmodifiers hkeyword
  have hwords' := exportWords_solid hmodifiers' hkeyword'
  obtain ⟨-, heq⟩ := span_unique heq hindent (hhead.solid_append hwords (hname.solid after))
    hindent' (hhead'.solid_append hwords' (hname'.solid after'))
  rcases hhead.prefix_of_append_eq hhead' heq hwords hwords' (hname.solid after)
    (hname'.solid after') with ⟨-, hrest⟩ | ⟨word, more, hmore⟩ | ⟨word, more, hmore⟩
  · exact name_unique hrest hname hafter hname' hafter'
  · exact (keyword_not_mem hmodifiers' hkeyword hmore).elim
  · exact (keyword_not_mem hmodifiers hkeyword' hmore).elim

section Patterns

open Regex

variable {b t : Text} {caps : Captures ℕ} {s' : Cursor ℕ × Captures ℕ}

theorem takes_spaces : spaces.Takes (⟨b, t⟩, caps) s' ↔
    ∃ gap v, t = gap ++ v ∧ gap ≠ [] ∧ Spaces gap ∧ s' = (⟨gap.reverse ++ b, v⟩, caps) :=
      takes_many1

/-- A word of a pattern and the whitespace behind it. -/
theorem takes_word (word : String) : (cat [.str word, spaces]).Takes (⟨b, t⟩, caps) s' ↔
    ∃ u v, t = u ++ v ∧ Worded [lit word] u ∧ s' = (⟨u.reverse ++ b, v⟩, caps) := by
  constructor
  · rintro ⟨_, hword, hspaces⟩
    obtain ⟨rest, rfl, rfl⟩ := takes_units.mp hword
    obtain ⟨gap, v, rfl, hgap, hall, rfl⟩ := takes_spaces.mp hspaces
    exact ⟨lit word ++ gap ++ [], v, by simp, .cons hgap hall .nil, by simp⟩
  · rintro ⟨u, v, rfl, hu, rfl⟩
    cases hu with
    | @cons _ _ gap _ hgap hall hnil =>
      cases hnil
      exact ⟨_, takes_units.mpr ⟨gap ++ v, by simp, rfl⟩,
        takes_spaces.mpr ⟨gap, v, rfl, hgap, hall, by simp⟩⟩

theorem takes_opt_word (word : String) : (opt (cat [.str word, spaces])).Takes (⟨b, t⟩, caps) s' ↔
    ∃ words ∈ [[], [lit word]], ∃ u v, t = u ++ v ∧ Worded words u ∧
      s' = (⟨u.reverse ++ b, v⟩, caps) := by
  rw [takes_opt, takes_word]
  constructor
  · rintro (⟨u, v, rfl, hu, rfl⟩ | rfl)
    · exact ⟨_, by simp, u, v, rfl, hu, rfl⟩
    · exact ⟨[], by simp, [], t, rfl, .nil, rfl⟩
  · rintro ⟨words, hwords, u, v, rfl, hu, rfl⟩
    simp only [List.mem_cons, List.not_mem_nil, or_false] at hwords
    rcases hwords with rfl | rfl
    · cases hu
      exact .inr rfl
    · exact .inl ⟨u, v, rfl, hu, rfl⟩

theorem takes_oneOf_units (words : List Text) :
    (oneOf (words.map units)).Takes (⟨b, t⟩, caps) s' ↔
      ∃ word ∈ words, ∃ v, t = word ++ v ∧ s' = (⟨word.reverse ++ b, v⟩, caps) := by
  induction words with
  | nil =>
    constructor
    · rintro ⟨_, _, _, hfalse, _⟩
      cases hfalse
    · rintro ⟨_, hmem, _⟩
      cases hmem
  | cons word words ih =>
    rw [List.exists_mem_cons_iff, ← ih]
    cases words with
    | nil =>
      rw [ih]
      simp only [List.map_cons, List.map_nil, oneOf, List.not_mem_nil, false_and, exists_false,
        or_false]
      exact takes_units
    | cons word' words => exact or_congr takes_units Iff.rfl

/-- A run of a class that the text around it stops. -/
theorem run_many_to_end {p : ℕ → Bool} {k : Cont ℕ} {x : Cursor ℕ × Captures ℕ} {u v : Text}
    (hu : ∀ c ∈ u, p c = true) (hv : ∀ c ∈ v.head?, p c = false)
    (hk : k ⟨u.reverse ++ b, v⟩ caps = some x) :
    (many (.cls p)).run k ⟨b, u ++ v⟩ caps = some x := by
  rw [run_many]
  refine greedy_last p u b hu hk ?_
  rintro (_ | ⟨c, w⟩) w' rfl hne hw
  · exact absurd rfl hne
  · have := hv c rfl
    rw [hw c List.mem_cons_self] at this
    cases this

/-- What an identifier at the end of an expression captures. -/
theorem run_name {name after : Text} (hname : IsName name) (hafter : NameEnds after) (n : ℕ) :
    (Regex.group n identifier).run done ⟨b, name ++ after⟩ caps =
      some (⟨name.reverse ++ b, after⟩, (n, name) :: caps) := by
  obtain ⟨c, rest, rfl, hc, hrest⟩ := hname
  show (Regex.cls isNameStart).run ((many (.cls isNameUnit)).run _)
    ⟨b, c :: (rest ++ after)⟩ caps = _
  rw [run_cls_cons, if_pos hc]
  refine run_many_to_end hrest hafter ?_
  show some _ = _
  rw [take_consumed (c :: rest) after]
  simp

theorem exists_name_of_takes {t : Text} (h : identifier.Takes (⟨b, t⟩, caps) s') :
    ∃ name after, t = name ++ after ∧ IsName name ∧ NameEnds after := by
  obtain ⟨_, ⟨c, rest, rfl, hc, rfl⟩, -⟩ := h
  refine ⟨c :: rest.takeWhile isNameUnit, rest.dropWhile isNameUnit, ?_,
    ⟨c, _, rfl, hc, fun d hd => List.mem_takeWhile_imp hd⟩, ?_⟩
  · rw [List.cons_append, List.takeWhile_append_dropWhile]
  · intro d hd
    have := List.head?_dropWhile_not isNameUnit rest
    rw [Option.mem_def.mp hd] at this
    simpa using this

/-- The pattern of declarations, as it is written. -/
def declarationPattern : Regex ℕ :=
  .cat [.bol, .many .space, .str "export", spaces, .opt (.cat [.str "declare", spaces]),
    .opt (.cat [.str "async", spaces]), .oneOf (exportKeywords.map units), spaces,
    .group 1 identifier]

/-- What stands in front of the name. -/
def declarationHead : List (Regex ℕ) :=
  [.many .space, .str "export", spaces, .opt (.cat [.str "declare", spaces]),
    .opt (.cat [.str "async", spaces]), .oneOf (exportKeywords.map units), spaces]

theorem declaration_exec_eq (line : Text) : declarationPattern.exec line =
    (cat declarationHead).run ((Regex.group 1 identifier).run done) ⟨[], line⟩ [] := by
  show (Regex.seq .bol (cat (declarationHead ++ [.group 1 identifier]))).exec line = _
  rw [exec_bol]
  rfl

theorem takes_declarationHead : (cat declarationHead).Takes (⟨[], t⟩, []) s' ↔
    ∃ indent modifiers keyword head v, Spaces indent ∧ modifiers ∈ exportModifiers ∧
      keyword ∈ exportKeywords ∧ Worded (lit "export" :: (modifiers ++ [keyword])) head ∧
      t = indent ++ (head ++ v) ∧ s' = (⟨(indent ++ head).reverse, v⟩, []) := by
  constructor
  · rintro ⟨_, h₁, _, h₂, _, h₃, _, h₄, _, h₅, _, h₆, h₇⟩
    obtain ⟨indent, _, rfl, hindent, rfl⟩ := takes_many.mp h₁
    obtain ⟨_, rfl, rfl⟩ := takes_units.mp h₂
    obtain ⟨gap, _, rfl, hgap, hspaces, rfl⟩ := takes_spaces.mp h₃
    obtain ⟨words, hwords, u, _, rfl, hu, rfl⟩ := (takes_opt_word "declare").mp h₄
    obtain ⟨words', hwords', u', _, rfl, hu', rfl⟩ := (takes_opt_word "async").mp h₅
    obtain ⟨keyword, hkeyword, _, rfl, rfl⟩ := (takes_oneOf_units _).mp h₆
    obtain ⟨gap', v, rfl, hgap', hspaces', rfl⟩ := takes_spaces.mp h₇
    refine ⟨indent, words ++ words', keyword,
      lit "export" ++ gap ++ (u ++ u' ++ (keyword ++ gap' ++ [])), v, hindent, ?_, hkeyword,
      .cons hgap hspaces ((hu.append hu').append (.cons hgap' hspaces' .nil)), by simp, by simp⟩
    simp only [List.mem_cons, List.not_mem_nil, or_false] at hwords hwords'
    rcases hwords with rfl | rfl <;> rcases hwords' with rfl | rfl <;> simp [exportModifiers]
  · rintro ⟨indent, modifiers, keyword, head, v, hindent, hmodifiers, hkeyword, hhead, rfl, rfl⟩
    -- the modifiers are the two optional words
    obtain ⟨words, hwords, words', hwords', rfl⟩ : ∃ words ∈ [[], [lit "declare"]],
        ∃ words' ∈ [[], [lit "async"]], modifiers = words ++ words' := by
      have hall : ∀ modifiers ∈ exportModifiers, ∃ words ∈ [[], [lit "declare"]],
          ∃ words' ∈ [[], [lit "async"]], modifiers = words ++ words' := by decide
      exact hall _ hmodifiers
    have hhead : Worded ([lit "export"] ++ ((words ++ words') ++ [keyword])) head := hhead
    obtain ⟨_, _, rfl, he, hrest⟩ := hhead.split
    obtain ⟨_, _, rfl, hmods, hk⟩ := hrest.split
    obtain ⟨u, u', rfl, hu, hu'⟩ := hmods.split
    obtain ⟨gap, rfl, hgap, hspaces⟩ := he.singleton_inv
    obtain ⟨gap', rfl, hgap', hspaces'⟩ := hk.singleton_inv
    exact ⟨_, takes_many.mpr ⟨indent, _, rfl, hindent, rfl⟩, _,
      takes_units.mpr ⟨_, by simp only [List.append_assoc], rfl⟩, _,
      takes_spaces.mpr ⟨gap, _, rfl, hgap, hspaces, rfl⟩, _,
      (takes_opt_word "declare").mpr ⟨words, hwords, u, _, rfl, hu, rfl⟩, _,
      (takes_opt_word "async").mpr ⟨words', hwords', u', _, rfl, hu', rfl⟩, _,
      (takes_oneOf_units _).mpr ⟨keyword, hkeyword, _, rfl, rfl⟩,
      takes_spaces.mpr ⟨gap', v, rfl, hgap', hspaces', by simp⟩⟩

theorem declaration_exec {line : Text} {x : Cursor ℕ × Captures ℕ}
    (h : declarationPattern.exec line = some x) : ∃ name, x.2 = [(1, name)] ∧
      Declares line name := by
  rw [declaration_exec_eq] at h
  obtain ⟨_, hhead, hname⟩ := run_eq_some h
  obtain ⟨indent, modifiers, keyword, head, v, hindent, hmodifiers, hkeyword, hworded, rfl, rfl⟩ :=
    takes_declarationHead.mp hhead
  obtain ⟨_, hgroup, -⟩ := run_eq_some hname
  obtain ⟨_, hidentifier, -⟩ := takes_group.mp hgroup
  obtain ⟨name, after, rfl, hisName, hafter⟩ := exists_name_of_takes hidentifier
  rw [run_name hisName hafter] at hname
  obtain rfl := Option.some.inj hname
  exact ⟨name, rfl, indent, modifiers, keyword, head, after, hindent, hmodifiers, hkeyword, hworded,
    hisName, hafter, rfl⟩

theorem declaration_exec_ne_none {line name : Text} (h : Declares line name) :
    declarationPattern.exec line ≠ none := by
  obtain ⟨indent, modifiers, keyword, head, after, hindent, hmodifiers, hkeyword, hhead, hname,
    hafter, rfl⟩ := h
  have htakes := takes_declarationHead.mpr ⟨indent, modifiers, keyword, head, name ++ after,
    hindent, hmodifiers, hkeyword, hhead, rfl, rfl⟩
  rw [declaration_exec_eq]
  refine run_ne_none htakes ?_
  rw [run_name hname hafter]
  exact Option.some_ne_none _

/-- **What the pattern of declarations captures.** -/
theorem capture_declaration_iff {line name : Text} :
    declarationPattern.capture 1 line = some name ↔ Declares line name := by
  refine capture_eq_some_iff (P := Declares line) (fun x hx => ?_) (fun _ _ h h' => h.unique h')
    (fun _ h => declaration_exec_ne_none h) name
  obtain ⟨name, hcaps, hdeclares⟩ := declaration_exec hx
  exact ⟨name, by rw [hcaps]; rfl, hdeclares⟩

/-! ### Default exports -/

theorem exists_span {t : Text} (h : ¬Solid t) :
    ∃ gap w, t = gap ++ w ∧ gap ≠ [] ∧ Spaces gap ∧ Solid w := by
  refine ⟨t.takeWhile isSpace, t.dropWhile isSpace, List.takeWhile_append_dropWhile.symm, ?_,
    fun c hc => List.mem_takeWhile_imp hc, ?_⟩
  · intro hnil
    refine h fun c hc => ?_
    obtain ⟨rest, rfl⟩ : ∃ rest, t = c :: rest := by
      cases t with
      | nil => cases hc
      | cons d rest => exact ⟨rest, by rw [Option.some.inj hc]⟩
    by_contra hspace
    simp [List.takeWhile_cons, hspace] at hnil
  · intro c hc
    have := List.head?_dropWhile_not isSpace t
    rw [Option.mem_def.mp hc] at this
    simpa using this

theorem not_solid_of_spaces {gap : Text} (hgap : gap ≠ []) (hspaces : Spaces gap) (rest : Text) :
    ¬Solid (gap ++ rest) := by
  obtain ⟨c, gap, rfl⟩ := List.exists_cons_of_ne_nil hgap
  intro hsolid
  have := hsolid c rfl
  rw [hspaces c List.mem_cons_self] at this
  cases this

/-- Whitespace up to where the text goes on. -/
theorem run_spaces_to_end {k : Cont ℕ} {x : Cursor ℕ × Captures ℕ} {gap w : Text} (hgap : gap ≠ [])
    (hspaces : Spaces gap) (hw : Solid w) (hk : k ⟨gap.reverse ++ b, w⟩ caps = some x) :
    spaces.run k ⟨b, gap ++ w⟩ caps = some x := by
  obtain ⟨c, gap, rfl⟩ := List.exists_cons_of_ne_nil hgap
  show (Regex.cls isSpace).run ((many (.cls isSpace)).run k) ⟨b, c :: (gap ++ w)⟩ caps = _
  rw [run_cls_cons, if_pos (hspaces c List.mem_cons_self)]
  refine run_many_to_end (fun d hd => hspaces d (List.mem_cons_of_mem _ hd)) hw ?_
  simpa using hk

/-- The text begins with this identifier. -/
def BeginsWith (name text : Text) : Prop :=
  ∃ after, text = name ++ after ∧ IsName name ∧ NameEnds after

theorem BeginsWith.unique {name name' text : Text} (h : BeginsWith name text)
    (h' : BeginsWith name' text) : name = name' := by
  obtain ⟨after, rfl, hname, hafter⟩ := h
  obtain ⟨after', heq, hname', hafter'⟩ := h'
  exact name_unique heq hname hafter hname' hafter'

/-- An optional identifier at the end of an expression is captured where there is one. -/
theorem run_opt_name (w : Text) : ∃ pos caps,
    (opt (.group 1 identifier)).run done ⟨b, w⟩ [] = some (pos, caps) ∧
      ∀ name, caps.lookup 1 = some name ↔ BeginsWith name w := by
  by_cases h : ∃ name, BeginsWith name w
  · obtain ⟨name, h⟩ := h
    obtain ⟨after, rfl, hname, hafter⟩ := id h
    refine ⟨⟨name.reverse ++ b, after⟩, [(1, name)], ?_, fun name' => ?_⟩
    · rw [opt, run_alt, run_name hname hafter]
      rfl
    · simp only [List.lookup_cons_self, Option.some.injEq]
      exact ⟨fun heq => heq ▸ h, fun h' => h.unique h'⟩
  · refine ⟨⟨b, w⟩, [], ?_, fun name => ⟨fun hnone => ?_, fun h' => absurd ⟨name, h'⟩ h⟩⟩
    swap
    · simp at hnone
    have hnone : (Regex.group 1 identifier).run done ⟨b, w⟩ [] = none := by
      rw [run_done_eq_none_iff]
      intro x htakes
      obtain ⟨_, hidentifier, -⟩ := takes_group.mp htakes
      obtain ⟨name, after, hw, hname, hafter⟩ := exists_name_of_takes hidentifier
      exact h ⟨name, after, hw, hname, hafter⟩
    rw [opt, run_alt, hnone]
    rfl

/-- What follows `export default`: a name, after `function` if that is there with whitespace. -/
def TailNames (w name : Text) : Prop :=
  (∃ gap rest, w = lit "function" ++ (gap ++ rest) ∧ gap ≠ [] ∧ Spaces gap ∧ BeginsWith name rest) ∨
    BeginsWith name w ∧ ∀ rest, w = lit "function" ++ rest → Solid rest

theorem isName_function : IsName (lit "function") := by
  refine ⟨102, lit "unction", by decide, by decide, ?_⟩
  decide

/-- An optional part is tried first. -/
theorem run_opt_first (r r' : Regex ℕ) (k : Cont ℕ) (pos : Cursor ℕ) :
    (cat [.opt r, r']).run k pos caps = (r.run (r'.run k) pos caps).or (r'.run k pos caps) := rfl

theorem run_tail {w : Text} : ∃ pos caps,
    (cat [.opt (.cat [.str "function", spaces]), .opt (.group 1 identifier)]).run done ⟨b, w⟩ [] =
      some (pos, caps) ∧ ∀ name, caps.lookup 1 = some name ↔ TailNames w name := by
  by_cases h : ∃ rest, w = lit "function" ++ rest ∧ ¬Solid rest
  · obtain ⟨rest, rfl, hsolid⟩ := h
    obtain ⟨gap, v, rfl, hgap, hspaces, hv⟩ := exists_span hsolid
    obtain ⟨pos, caps, hrun, hnames⟩ :=
      run_opt_name (b := gap.reverse ++ ((lit "function").reverse ++ b)) v
    refine ⟨pos, caps, ?_, fun name => (hnames name).trans ⟨fun hv' => ?_, ?_⟩⟩
    · have hfirst : (cat [.str "function", spaces]).run ((opt (.group 1 identifier)).run done)
          ⟨b, lit "function" ++ (gap ++ v)⟩ [] = some (pos, caps) := by
        rw [show cat [.str "function", spaces] = .seq (units (lit "function")) spaces from rfl,
          run_seq, run_units_append]
        exact run_spaces_to_end hgap hspaces hv hrun
      rw [run_opt_first, hfirst]
      rfl
    · exact .inl ⟨gap, v, rfl, hgap, hspaces, hv'⟩
    · rintro (⟨gap', v', heq, hgap', hspaces', hv'⟩ | ⟨-, hstop⟩)
      · have hsolid' : Solid v' := by
          obtain ⟨after, rfl, hname, -⟩ := hv'
          exact hname.solid after
        obtain ⟨-, rfl⟩ := span_unique (List.append_cancel_left heq) hspaces hv hspaces' hsolid'
        exact hv'
      · exact absurd (hstop _ rfl) hsolid
  · have hstop : ∀ rest, w = lit "function" ++ rest → Solid rest := by
      intro rest hw
      by_contra hsolid
      exact h ⟨rest, hw, hsolid⟩
    obtain ⟨pos, caps, hrun, hnames⟩ := run_opt_name (b := b) w
    refine ⟨pos, caps, ?_, fun name => (hnames name).trans ⟨fun hw => .inr ⟨hw, hstop⟩, ?_⟩⟩
    · have hfirst : (cat [.str "function", spaces]).run ((opt (.group 1 identifier)).run done)
          ⟨b, w⟩ [] = none := by
        by_contra hne
        obtain ⟨x, hx⟩ := Option.ne_none_iff_exists'.mp hne
        obtain ⟨_, ⟨_, hword, hgap⟩, -⟩ := run_eq_some hx
        obtain ⟨rest, rfl, rfl⟩ := takes_units.mp hword
        obtain ⟨gap, v, rfl, hgap, hspaces, -⟩ := takes_spaces.mp hgap
        exact not_solid_of_spaces hgap hspaces v (hstop _ rfl)
      rw [run_opt_first, hfirst]
      exact hrun
    · rintro (⟨gap, rest, rfl, hgap, hspaces, -⟩ | ⟨hw, -⟩)
      · exact absurd (hstop _ rfl) (not_solid_of_spaces hgap hspaces rest)
      · exact hw

theorem BeginsWith.solid {name text : Text} (h : BeginsWith name text) : Solid text := by
  obtain ⟨after, rfl, hname, -⟩ := h
  exact hname.solid after

theorem TailNames.solid {w name : Text} (h : TailNames w name) : Solid w := by
  rcases h with ⟨gap, rest, rfl, -, -, -⟩ | ⟨h, -⟩
  · exact isName_function.solid _
  · exact h.solid

/-- The line exports the name as its default. -/
def NamesDefault (line name : Text) : Prop :=
  ∃ indent head w, Spaces indent ∧ Worded [lit "export", lit "default"] head ∧
    line = indent ++ (head ++ w) ∧ TailNames w name

/-- The pattern of default exports, as it is written. -/
def defaultPattern : Regex ℕ :=
  .cat [.bol, .many .space, .str "export", spaces, .str "default", spaces,
    .opt (.cat [.str "function", spaces]), .opt (.group 1 identifier)]

theorem defaultWords_solid : ∀ word ∈ [lit "export", lit "default"],
    word ≠ [] ∧ ∀ c ∈ word, isSpace c = false := by decide

theorem default_exec_eq (line : Text) : defaultPattern.exec line =
    (cat [.many .space, .str "export", spaces, .str "default"]).run (spaces.run
      ((cat [.opt (.cat [.str "function", spaces]), .opt (.group 1 identifier)]).run done))
      ⟨[], line⟩ [] := by
  show (Regex.seq .bol (cat [.many .space, .str "export", spaces, .str "default", spaces,
    .opt (.cat [.str "function", spaces]), .opt (.group 1 identifier)])).exec line = _
  rw [exec_bol]
  rfl

theorem takes_defaultHead : (cat [.many .space, .str "export", spaces, .str "default"]).Takes
    (⟨[], t⟩, []) s' ↔ ∃ indent gap v, Spaces indent ∧ gap ≠ [] ∧ Spaces gap ∧
      t = indent ++ (lit "export" ++ gap ++ (lit "default" ++ v)) ∧
      s' = (⟨(indent ++ (lit "export" ++ gap ++ lit "default")).reverse, v⟩, []) := by
  constructor
  · rintro ⟨_, h₁, _, h₂, _, h₃, h₄⟩
    obtain ⟨indent, _, rfl, hindent, rfl⟩ := takes_many.mp h₁
    obtain ⟨_, rfl, rfl⟩ := takes_units.mp h₂
    obtain ⟨gap, _, rfl, hgap, hspaces, rfl⟩ := takes_spaces.mp h₃
    obtain ⟨v, rfl, rfl⟩ := takes_units.mp h₄
    exact ⟨indent, gap, v, hindent, hgap, hspaces, by simp, by simp⟩
  · rintro ⟨indent, gap, v, hindent, hgap, hspaces, rfl, rfl⟩
    exact ⟨_, takes_many.mpr ⟨indent, _, rfl, hindent, rfl⟩, _,
      takes_units.mpr ⟨_, by simp only [List.append_assoc], rfl⟩, _,
      takes_spaces.mpr ⟨gap, _, rfl, hgap, hspaces, rfl⟩, takes_units.mpr ⟨v, rfl, by simp⟩⟩

theorem default_exec {line : Text} {x : Cursor ℕ × Captures ℕ}
    (h : defaultPattern.exec line = some x) : ∃ indent head w, Spaces indent ∧
      Worded [lit "export", lit "default"] head ∧ line = indent ++ (head ++ w) ∧ Solid w ∧
      ∀ name, x.2.lookup 1 = some name ↔ TailNames w name := by
  rw [default_exec_eq] at h
  obtain ⟨_, hhead, htail⟩ := run_eq_some h
  obtain ⟨indent, gap, v, hindent, hgap, hspaces, rfl, rfl⟩ := takes_defaultHead.mp hhead
  obtain ⟨_, hgap', -⟩ := run_eq_some htail
  obtain ⟨gap', v', rfl, hgap', hspaces', -⟩ := takes_spaces.mp hgap'
  obtain ⟨gap', w, heq, hgap', hspaces', hw⟩ := exists_span (not_solid_of_spaces hgap' hspaces' v')
  rw [heq] at htail ⊢
  obtain ⟨pos, caps, hrun, hnames⟩ := run_tail (w := w)
    (b := gap'.reverse ++ (indent ++ (lit "export" ++ gap ++ lit "default")).reverse)
  rw [run_spaces_to_end hgap' hspaces' hw hrun] at htail
  obtain rfl := Option.some.inj htail
  exact ⟨indent, _, w, hindent, .cons hgap hspaces (.cons hgap' hspaces' .nil), by simp, hw, hnames⟩

/-- **What the pattern of default exports captures.** -/
theorem capture_default_iff {line name : Text} :
    defaultPattern.capture 1 line = some name ↔ NamesDefault line name := by
  constructor
  · intro h
    cases hexec : defaultPattern.exec line with
    | none => simp [capture, hexec] at h
    | some x =>
      obtain ⟨indent, head, w, hindent, hhead, hline, -, hnames⟩ := default_exec hexec
      exact ⟨indent, head, w, hindent, hhead, hline, (hnames name).mp (capture_of_exec hexec ▸ h)⟩
  · rintro ⟨indent, head, w, hindent, hhead, rfl, hname⟩
    have hne : defaultPattern.exec (indent ++ (head ++ w)) ≠ none := by
      have hhead : Worded ([lit "export"] ++ [lit "default"]) head := hhead
      obtain ⟨_, _, rfl, he, hd⟩ := hhead.split
      obtain ⟨gap, rfl, hgap, hspaces⟩ := he.singleton_inv
      obtain ⟨gap', rfl, hgap', hspaces'⟩ := hd.singleton_inv
      obtain ⟨pos, caps, hrun, -⟩ := run_tail (w := w)
        (b := gap'.reverse ++ (indent ++ (lit "export" ++ gap ++ lit "default")).reverse)
      rw [default_exec_eq]
      refine run_ne_none (takes_defaultHead.mpr
        ⟨indent, gap, gap' ++ w, hindent, hgap, hspaces, by simp, rfl⟩) ?_
      rw [run_spaces_to_end hgap' hspaces' hname.solid hrun]
      exact Option.some_ne_none _
    obtain ⟨x, hx⟩ := Option.ne_none_iff_exists'.mp hne
    obtain ⟨indent', head', w', hindent', hhead', heq, hw', hnames⟩ := default_exec hx
    obtain ⟨-, heq⟩ := span_unique heq hindent (hhead.solid_append defaultWords_solid hname.solid)
      hindent' (hhead'.solid_append defaultWords_solid hw')
    rcases hhead.prefix_of_append_eq hhead' heq defaultWords_solid defaultWords_solid
      hname.solid hw'
      with ⟨-, rfl⟩ | ⟨word, more, hmore⟩ | ⟨word, more, hmore⟩
    · rw [capture_of_exec hx]
      exact (hnames name).mpr hname
    · simp at hmore
    · simp at hmore

/-! ### Lists and their members -/

/-- The start of a brace list. -/
def ListHead (head : Text) : Prop :=
  ∃ gap words, head = lit "export" ++ gap ++ words ++ [123] ∧ Spaces gap ∧
    (words = [] ∨ ∃ gap', words = lit "type" ++ gap' ∧ Spaces gap')

/-- A brace list stands here, with this body. -/
def ListAt (text body : Text) : Prop :=
  ∃ head back, text = head ++ (body ++ 125 :: back) ∧ ListHead head ∧ 125 ∉ body

/-- The first brace list of the line has this body. -/
def Lists (line body : Text) : Prop :=
  ∃ front rest, line = front ++ rest ∧ ListAt rest body ∧
    ∀ front' rest', line = front' ++ rest' → front'.length < front.length →
      ∀ body', ¬ListAt rest' body'

theorem cut_unique {c : ℕ} {x y x' y' : Text} (h : x ++ c :: y = x' ++ c :: y') (hx : c ∉ x)
    (hx' : c ∉ x') : x = x' ∧ y = y' := by
  induction x generalizing x' with
  | nil =>
    cases x' with
    | nil => exact ⟨rfl, (List.cons.inj h).2⟩
    | cons d x' =>
      obtain ⟨rfl, -⟩ := List.cons.inj h
      exact absurd List.mem_cons_self hx'
  | cons d x ih =>
    cases x' with
    | nil =>
      obtain ⟨rfl, -⟩ := List.cons.inj h
      exact absurd List.mem_cons_self hx
    | cons e x' =>
      obtain ⟨rfl, htail⟩ := List.cons.inj h
      obtain ⟨rfl, rfl⟩ := ih htail (fun hc => hx (List.mem_cons_of_mem _ hc))
        fun hc => hx' (List.mem_cons_of_mem _ hc)
      exact ⟨rfl, rfl⟩

theorem not_brace_of_spaces {gap : Text} (h : Spaces gap) : 123 ∉ gap := by
  intro hmem
  exact absurd (h 123 hmem) (by decide)

/-- The head of a list ends at its only brace. -/
theorem ListHead.eq_concat {head : Text} (h : ListHead head) : ∃ x, head = x ++ [123] ∧
    123 ∉ x := by
  obtain ⟨gap, words, rfl, hgap, hwords⟩ := h
  refine ⟨_, rfl, ?_⟩
  have hexport : 123 ∉ lit "export" := by decide
  have htype : 123 ∉ lit "type" := by decide
  rcases hwords with rfl | ⟨gap', rfl, hgap'⟩
  · simp [hexport, not_brace_of_spaces hgap]
  · simp [hexport, htype, not_brace_of_spaces hgap, not_brace_of_spaces hgap']

theorem ListAt.unique {text body body' : Text} (h : ListAt text body) (h' : ListAt text body') :
    body = body' := by
  obtain ⟨head, back, rfl, hhead, hbody⟩ := h
  obtain ⟨head', back', heq, hhead', hbody'⟩ := h'
  obtain ⟨x, rfl, hx⟩ := hhead.eq_concat
  obtain ⟨x', rfl, hx'⟩ := hhead'.eq_concat
  rw [List.append_assoc, List.append_assoc] at heq
  obtain ⟨-, heq⟩ := cut_unique heq hx hx'
  exact (cut_unique heq hbody hbody').1

theorem takes_opt_type : (opt (.cat [.str "type", .many .space])).Takes (⟨b, t⟩, caps) s' ↔
    ∃ words v, t = words ++ v ∧ (words = [] ∨ ∃ gap, words = lit "type" ++ gap ∧ Spaces gap) ∧
      s' = (⟨words.reverse ++ b, v⟩, caps) := by
  rw [takes_opt]
  constructor
  · rintro (⟨_, h, h'⟩ | rfl)
    · obtain ⟨_, rfl, rfl⟩ := takes_units.mp h
      obtain ⟨gap, v, rfl, hgap, rfl⟩ := takes_many.mp h'
      exact ⟨lit "type" ++ gap, v, by simp, .inr ⟨gap, rfl, hgap⟩, by simp⟩
    · exact ⟨[], t, rfl, .inl rfl, rfl⟩
  · rintro ⟨words, v, rfl, rfl | ⟨gap, rfl, hgap⟩, rfl⟩
    · exact .inr rfl
    · exact .inl ⟨_, takes_units.mpr ⟨gap ++ v, by simp, rfl⟩,
        takes_many.mpr ⟨gap, v, rfl, hgap, by simp⟩⟩

theorem not_brace_iff {body : Text} : (∀ c ∈ body, decide (c ≠ 125) = true) ↔ 125 ∉ body := by
  simp only [decide_eq_true_eq]
  exact ⟨fun h hmem => h 125 hmem rfl, fun h c hc heq => h (heq ▸ hc)⟩

theorem listAt_of_takes (h : braceList.Takes (⟨b, t⟩, []) s') :
    ∃ body, ListAt t body ∧ s'.2 = [(1, body)] := by
  obtain ⟨_, h₁, _, h₂, _, h₃, _, h₄, _, h₅, h₆⟩ := h
  obtain ⟨_, rfl, rfl⟩ := takes_units.mp h₁
  obtain ⟨gap, _, rfl, hgap, rfl⟩ := takes_many.mp h₂
  obtain ⟨words, _, rfl, hwords, rfl⟩ := takes_opt_type.mp h₃
  obtain ⟨_, rfl, rfl⟩ := takes_units.mp h₄
  obtain ⟨_, hmany, rfl⟩ := takes_group.mp h₅
  obtain ⟨body, _, rfl, hbody, rfl⟩ := takes_many.mp hmany
  obtain ⟨back, rfl, rfl⟩ := takes_units.mp h₆
  refine ⟨body, ⟨lit "export" ++ gap ++ words ++ [123], back,
    by simp, ⟨gap, words, rfl, hgap, hwords⟩, not_brace_iff.mp hbody⟩, ?_⟩
  dsimp only
  rw [take_consumed]

theorem exists_takes_of_listAt {body : Text} (h : ListAt t body) :
    ∃ s', braceList.Takes (⟨b, t⟩, []) s' := by
  obtain ⟨_, back, rfl, ⟨gap, words, rfl, hgap, hwords⟩, hbody⟩ := h
  exact ⟨_, _, takes_units.mpr ⟨gap ++ (words ++ ([123] ++ (body ++ ([125] ++ back)))),
    by simp, rfl⟩, _,
    takes_many.mpr ⟨gap, _, rfl, hgap, rfl⟩, _, takes_opt_type.mpr ⟨words, _, rfl, hwords, rfl⟩, _,
    takes_units.mpr ⟨_, rfl, rfl⟩, _,
    takes_group.mpr ⟨_, takes_many.mpr ⟨body, _, rfl, not_brace_iff.mpr hbody, rfl⟩, rfl⟩,
    takes_units.mpr ⟨back, rfl, rfl⟩⟩

theorem braceList_exec {line : Text} {x : Cursor ℕ × Captures ℕ}
    (h : braceList.exec line = some x) :
    ∃ body, x.2 = [(1, body)] ∧ Lists line body := by
  obtain ⟨front, rest, rfl, hrun, hfirst⟩ := exec_spec h
  obtain ⟨body, hat, hcaps⟩ := listAt_of_takes (takes_of_run_done hrun)
  refine ⟨body, hcaps, front, rest, rfl, hat, fun front' rest' hsplit hlt body' hat' => ?_⟩
  obtain ⟨s', htakes⟩ := exists_takes_of_listAt (b := front'.reverse) hat'
  exact hfirst front' rest' hsplit hlt s' htakes

/-- Of two places of which neither is before the other. -/
theorem Lists.unique {line body body' : Text} (h : Lists line body) (h' : Lists line body') :
    body = body' := by
  obtain ⟨front, rest, rfl, hat, hfirst⟩ := h
  obtain ⟨front', rest', heq, hat', hfirst'⟩ := h'
  rcases Nat.lt_trichotomy front.length front'.length with hlt | hlength | hlt
  · exact absurd hat (hfirst' front rest rfl hlt body)
  · obtain ⟨-, rfl⟩ := List.append_inj heq hlength
    exact hat.unique hat'
  · exact absurd hat' (hfirst front' rest' heq hlt body')

/-- **What the pattern of brace lists captures.** -/
theorem capture_braceList_iff {line body : Text} :
    braceList.capture 1 line = some body ↔ Lists line body := by
  refine capture_eq_some_iff (P := Lists line) (fun x hx => ?_) (fun _ _ h h' => h.unique h')
    (fun _ h => ?_) body
  · obtain ⟨body, hcaps, hlists⟩ := braceList_exec hx
    exact ⟨body, by rw [hcaps]; rfl, hlists⟩
  · obtain ⟨front, rest, rfl, hat, -⟩ := h
    obtain ⟨s', htakes⟩ := exists_takes_of_listAt (b := front.reverse) hat
    exact exec_ne_none htakes

/-- The line is a member of an export list, with a comma behind it. -/
def IsMember (line : Text) : Prop :=
  ∃ indent head name gap renamed gap' gap'', Spaces indent ∧
    (head = [] ∨ Worded [lit "type"] head) ∧ IsName name ∧ Spaces gap ∧
    (renamed = [] ∨ ∃ head' name', renamed = head' ++ name' ∧ Worded [lit "as"] head' ∧
      IsName name') ∧
    Spaces gap' ∧ Spaces gap'' ∧
    line = indent ++ (head ++ (name ++ (gap ++ (renamed ++ (gap' ++ (lit "," ++ gap''))))))

theorem takes_identifier : identifier.Takes (⟨b, t⟩, caps) s' ↔
    ∃ name v, t = name ++ v ∧ IsName name ∧ s' = (⟨name.reverse ++ b, v⟩, caps) := by
  constructor
  · rintro ⟨_, ⟨c, _, rfl, hc, rfl⟩, hrest⟩
    obtain ⟨u, v, rfl, hu, rfl⟩ := takes_many.mp hrest
    exact ⟨c :: u, v, rfl, ⟨c, u, rfl, hc, hu⟩, by simp⟩
  · rintro ⟨_, v, rfl, ⟨c, u, rfl, hc, hu⟩, rfl⟩
    exact ⟨_, ⟨c, u ++ v, rfl, hc, rfl⟩, takes_many.mpr ⟨u, v, rfl, hu, by simp⟩⟩

theorem takes_opt_type_word : (opt (.cat [.str "type", spaces])).Takes (⟨b, t⟩, caps) s' ↔
    ∃ head v, t = head ++ v ∧ (head = [] ∨ Worded [lit "type"] head) ∧
      s' = (⟨head.reverse ++ b, v⟩, caps) := by
  rw [takes_opt, takes_word]
  constructor
  · rintro (⟨u, v, rfl, hu, rfl⟩ | rfl)
    · exact ⟨u, v, rfl, .inr hu, rfl⟩
    · exact ⟨[], t, rfl, .inl rfl, rfl⟩
  · rintro ⟨head, v, rfl, rfl | hhead, rfl⟩
    · exact .inr rfl
    · exact .inl ⟨head, v, rfl, hhead, rfl⟩

theorem takes_opt_renamed :
    (opt (.cat [.str "as", spaces, identifier])).Takes (⟨b, t⟩, caps) s' ↔
      ∃ renamed v, t = renamed ++ v ∧
        (renamed = [] ∨ ∃ head name, renamed = head ++ name ∧ Worded [lit "as"] head ∧
          IsName name) ∧
        s' = (⟨renamed.reverse ++ b, v⟩, caps) := by
  have hword : ∀ {s}, (cat [.str "as", spaces, identifier]).Takes s s' ↔
      ∃ mid, (cat [.str "as", spaces]).Takes s mid ∧ identifier.Takes mid s' := by
    intro s
    exact takes_cat_append [.str "as", spaces] [identifier]
  rw [takes_opt, hword]
  constructor
  · rintro (⟨_, has, hidentifier⟩ | rfl)
    · obtain ⟨head, _, rfl, hhead, rfl⟩ := (takes_word "as").mp has
      obtain ⟨name, v, rfl, hname, rfl⟩ := takes_identifier.mp hidentifier
      exact ⟨head ++ name, v, by simp, .inr ⟨head, name, rfl, hhead, hname⟩, by simp⟩
    · exact ⟨[], t, rfl, .inl rfl, rfl⟩
  · rintro ⟨renamed, v, rfl, rfl | ⟨head, name, rfl, hhead, hname⟩, rfl⟩
    · exact .inr rfl
    · exact .inl ⟨_, (takes_word "as").mpr ⟨head, name ++ v, by simp, hhead, rfl⟩,
        takes_identifier.mpr ⟨name, v, rfl, hname, by simp⟩⟩

theorem memberLine_test_iff {line : Text} : memberLine.test line = true ↔ IsMember line := by
  rw [test_iff]
  constructor
  · rintro ⟨front, t, rfl, x, _, ⟨hfront, rfl⟩, _, h₁, _, h₂, _, h₃, _, h₄, _, h₅, _, h₆, _,
      h₇, _, h₈, hend, -⟩
    obtain rfl := List.reverse_eq_nil_iff.mp hfront
    obtain ⟨indent, _, rfl, hindent, rfl⟩ := takes_many.mp h₁
    obtain ⟨head, _, rfl, hhead, rfl⟩ := takes_opt_type_word.mp h₂
    obtain ⟨name, _, rfl, hname, rfl⟩ := takes_identifier.mp h₃
    obtain ⟨gap, _, rfl, hgap, rfl⟩ := takes_many.mp h₄
    obtain ⟨renamed, _, rfl, hrenamed, rfl⟩ := takes_opt_renamed.mp h₅
    obtain ⟨gap', _, rfl, hgap', rfl⟩ := takes_many.mp h₆
    obtain ⟨_, rfl, rfl⟩ := takes_units.mp h₇
    obtain ⟨gap'', _, rfl, hgap'', rfl⟩ := takes_many.mp h₈
    obtain rfl : _ = [] := hend
    exact ⟨indent, head, name, gap, renamed, gap', gap'', hindent, hhead, hname, hgap,
      hrenamed, hgap', hgap'', by simp⟩
  · rintro ⟨indent, head, name, gap, renamed, gap', gap'', hindent, hhead, hname, hgap, hrenamed,
      hgap', hgap'', rfl⟩
    exact ⟨[], _, rfl, _, _, ⟨rfl, rfl⟩, _, takes_many.mpr ⟨indent, _, rfl, hindent, rfl⟩, _,
      takes_opt_type_word.mpr ⟨head, _, rfl, hhead, rfl⟩, _,
      takes_identifier.mpr ⟨name, _, rfl, hname, rfl⟩, _,
        takes_many.mpr ⟨gap, _, rfl, hgap, rfl⟩, _,
      takes_opt_renamed.mpr ⟨renamed, _, rfl, hrenamed, rfl⟩, _,
      takes_many.mpr ⟨gap', _, rfl, hgap', rfl⟩, _, takes_units.mpr ⟨gap'', rfl, rfl⟩, _,
      takes_many.mpr ⟨gap'', [], by simp, hgap'', rfl⟩, rfl, rfl⟩

end Patterns

/-! ### What a line names -/

/-- The names a line gives to be exported: the one it declares, else its default's, else those of
its first brace list, else, when it is a member on a line of its own, that one. -/
inductive Names (line : Text) : Text → Prop
  | declaration {name} (h : Declares line name) : Names line name
  | default {name} (hnone : ∀ name, ¬Declares line name) (h : NamesDefault line name) :
      Names line name
  | list {body entry name} (hnone : ∀ name, ¬Declares line name ∧ ¬NamesDefault line name)
      (h : Lists line body) (hentry : entry ∈ body.splitOn 44)
        (hname : entryName entry = some name) :
      Names line name
  | member {entry name} (hnone : ∀ name, ¬Declares line name ∧ ¬NamesDefault line name)
      (hlist : ∀ body, ¬Lists line body) (h : IsMember line) (hentry : entry ∈ line.splitOn 44)
      (hname : entryName entry = some name) : Names line name

theorem exportPatterns_findSome? (line : Text) :
    (exportPatterns.findSome? fun pattern => pattern.capture 1 line) =
      (declarationPattern.capture 1 line).or (defaultPattern.capture 1 line) := by
  show List.findSome? _ [declarationPattern, defaultPattern] = _
  rw [List.findSome?_cons, List.findSome?_cons, List.findSome?_nil]
  cases declarationPattern.capture 1 line <;> cases defaultPattern.capture 1 line <;> rfl

/-- **The names found on a line.** -/
theorem mem_lineExports_iff {line name : Text} : name ∈ lineExports line ↔ Names line name := by
  unfold lineExports
  rw [exportPatterns_findSome?]
  cases hdeclares : declarationPattern.capture 1 line with
  | some declared =>
    have hdeclares := capture_declaration_iff.mp hdeclares
    simp only [Option.some_or, List.mem_singleton]
    constructor
    · rintro rfl
      exact .declaration hdeclares
    · intro h
      cases h with
      | declaration h => exact h.unique hdeclares
      | default hnone => exact absurd hdeclares (hnone declared)
      | list hnone => exact absurd hdeclares (hnone declared).1
      | member hnone => exact absurd hdeclares (hnone declared).1
  | none =>
    have hnotDeclared : ∀ name, ¬Declares line name := fun name h => by
      rw [capture_declaration_iff.mpr h] at hdeclares
      cases hdeclares
    rw [Option.none_or]
    cases hdefault : defaultPattern.capture 1 line with
    | some exported =>
      simp only [List.mem_singleton]
      constructor
      · rintro rfl
        exact .default hnotDeclared (capture_default_iff.mp hdefault)
      · intro h
        cases h with
        | declaration h => exact absurd h (hnotDeclared name)
        | default _ h => exact Option.some.inj ((capture_default_iff.mpr h).symm.trans hdefault)
        | list hnone => exact absurd (capture_default_iff.mp hdefault) (hnone exported).2
        | member hnone => exact absurd (capture_default_iff.mp hdefault) (hnone exported).2
    | none =>
      have hnone : ∀ name, ¬Declares line name ∧ ¬NamesDefault line name := fun name =>
        ⟨hnotDeclared name, fun h => by
          rw [capture_default_iff.mpr h] at hdefault
          cases hdefault⟩
      dsimp only
      cases hbody : braceList.capture 1 line with
      | some body =>
        simp only [Option.some_or, List.mem_filterMap]
        constructor
        · rintro ⟨entry, hentry, hname⟩
          exact .list hnone (capture_braceList_iff.mp hbody) hentry hname
        · intro h
          cases h with
          | declaration h => exact absurd h (hnone name).1
          | default _ h => exact absurd h (hnone name).2
          | list _ h hentry hname =>
            obtain rfl := h.unique (capture_braceList_iff.mp hbody)
            exact ⟨_, hentry, hname⟩
          | member _ hlist => exact absurd (capture_braceList_iff.mp hbody) (hlist body)
      | none =>
        have hlist : ∀ body, ¬Lists line body := fun body h => by
          rw [capture_braceList_iff.mpr h] at hbody
          cases hbody
        rw [Option.none_or]
        by_cases hmember : memberLine.test line = true
        · simp only [hmember, if_true, List.mem_filterMap]
          constructor
          · rintro ⟨entry, hentry, hname⟩
            exact .member hnone hlist (memberLine_test_iff.mp hmember) hentry hname
          · intro h
            cases h with
            | declaration h => exact absurd h (hnone name).1
            | default _ h => exact absurd h (hnone name).2
            | list _ h => exact absurd h (hlist _)
            | member _ _ _ hentry hname => exact ⟨_, hentry, hname⟩
        · simp only [hmember, Bool.false_eq_true, if_false, List.not_mem_nil, false_iff]
          intro h
          cases h with
          | declaration h => exact (hnone name).1 h
          | default _ h => exact (hnone name).2 h
          | list _ h => exact hlist _ h
          | member _ _ h => exact hmember (memberLine_test_iff.mpr h)

end Newsdeck.Loop

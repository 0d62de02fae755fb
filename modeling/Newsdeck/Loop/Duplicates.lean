import Mathlib.Data.List.Basic
import Newsdeck.Ecma.JsonRoundTrip
import Newsdeck.Library.Splitting
import Newsdeck.Loop.Verdict

/-!
# Which findings collapse

Two findings collapse when their keys agree, and a key is the file, the line and the lower-cased
description joined by colons.  A line's text holds no colon; a path and a description may.  So the
key does not determine its parts, and a finding can disappear under one about another line of
another file.

* `dedupeKey_eq_iff` — two keys agree when the findings are the same up to letter case, or when one
  is read as the other by shifting a colon (`Confused`);
* `aggregateReviews_represents_iff` — every finding is represented in the output exactly when no
  two of them are confused.
-/

namespace Newsdeck.Loop

open Ecma

/-! ### Joined fields -/

/-- Where two lists agree and the first part of one is the longer one, what it has beyond the other
starts with the separator and runs into the fields after it. -/
theorem eq_of_append_cons_shift {α : Type} {a : α} {front mid back front' back' : List α}
    (hmid : a ∉ mid) (hlt : front.length < front'.length)
    (h : front ++ a :: (mid ++ a :: back) = front' ++ a :: back') :
    (front' = front ++ a :: mid ∧ back = back') ∨
      ∃ rest, front' = front ++ a :: (mid ++ a :: rest) ∧ back = rest ++ a :: back' := by
  rcases List.append_eq_append_iff.mp h with ⟨surplus, hsurplus, htail⟩ | ⟨surplus, hsurplus, -⟩
  · cases surplus with
    | nil =>
      rw [hsurplus, List.append_nil] at hlt
      omega
    | cons c surplus =>
      obtain ⟨rfl, hafter⟩ := List.cons.inj htail
      by_cases hmem : a ∈ surplus
      · obtain ⟨before, rest, rfl, hbefore⟩ := List.eq_append_cons_of_mem hmem
        have hsplit : mid ++ a :: back = before ++ a :: (rest ++ a :: back') := by
          rw [hafter]
          simp
        obtain ⟨rfl, hback⟩ := Splitting.append_cons_inj_of_not_mem hmid hbefore hsplit
        exact .inr ⟨rest, hsurplus, hback⟩
      · obtain ⟨rfl, hback⟩ := Splitting.append_cons_inj_of_not_mem hmid hmem hafter
        exact .inl ⟨hsurplus, hback⟩
  · rw [hsurplus, List.length_append] at hlt
    omega

/-! ### The key -/

/-- The file as the key spells it. -/
def keyFile (f : Finding) : Text := f.file.getD []

/-- The line as the key spells it. -/
def keyLine (f : Finding) : Text := (f.line.map decimal).getD []

theorem colon_not_mem_keyLine (f : Finding) : 58 ∉ keyLine f := by
  unfold keyLine
  cases f.line with
  | none => exact List.not_mem_nil
  | some line =>
    intro hcolon
    have := decimal_digit hcolon
    omega

theorem keyLine_inj {f g : Finding} : keyLine f = keyLine g ↔ f.line = g.line := by
  refine ⟨fun h => ?_, fun h => by rw [keyLine, keyLine, h]⟩
  unfold keyLine at h
  cases hf : f.line with
  | none =>
    cases hg : g.line with
    | none => rfl
    | some n =>
      rw [hf, hg] at h
      exact absurd h.symm (decimal_ne_nil n)
  | some m =>
    cases hg : g.line with
    | none =>
      rw [hf, hg] at h
      exact absurd h (decimal_ne_nil m)
    | some n =>
      rw [hf, hg] at h
      have := congrArg Json.digitsValue (show decimal m = decimal n from h)
      rw [Json.digitsValue_decimal, Json.digitsValue_decimal] at this
      rw [this]

variable [Host]

theorem dedupeKey_eq (f : Finding) : dedupeKey f =
    keyFile f ++ 58 :: (keyLine f ++ 58 :: Host.toLowerCase f.description) := by
  show keyFile f ++ [58] ++ keyLine f ++ [58] ++ Host.toLowerCase f.description = _
  simp

/-- The same file, the same line, and the same description up to letter case. -/
structure SameFinding (f g : Finding) : Prop where
  file : f.file = g.file
  line : f.line = g.line
  description : Host.toLowerCase f.description = Host.toLowerCase g.description

/-- The second finding can be read as the first although it is another one. -/
inductive Confused (f g : Finding) : Prop
  /-- One names no file and the other the empty one. -/
  | unnamed (other : f.file ≠ g.file) (file : keyFile f = keyFile g) (line : f.line = g.line)
      (description : Host.toLowerCase f.description = Host.toLowerCase g.description)
  /-- The file of `g` ends in the line of `f`, and the description of `f` starts with the line
  of `g`. -/
  | shifted (file : keyFile g = keyFile f ++ 58 :: keyLine f)
      (description : Host.toLowerCase f.description =
        keyLine g ++ 58 :: Host.toLowerCase g.description)
  /-- The file of `g` runs on into the description of `f`. -/
  | swallowed (rest : Text) (file : keyFile g = keyFile f ++ 58 :: (keyLine f ++ 58 :: rest))
      (description : Host.toLowerCase f.description =
        rest ++ 58 :: (keyLine g ++ 58 :: Host.toLowerCase g.description))

theorem SameFinding.symm {f g : Finding} (h : SameFinding f g) : SameFinding g f :=
  ⟨h.file.symm, h.line.symm, h.description.symm⟩

theorem SameFinding.trans {f g k : Finding} (h : SameFinding f g) (h' : SameFinding g k) :
    SameFinding f k :=
  ⟨h.file.trans h'.file, h.line.trans h'.line, h.description.trans h'.description⟩

theorem SameFinding.dedupeKey_eq {f g : Finding} (h : SameFinding f g) :
    dedupeKey f = dedupeKey g := by
  unfold dedupeKey
  rw [h.file, h.line, h.description]

/-- Confused findings are about different files. -/
theorem Confused.file_ne {f g : Finding} (h : Confused f g) : f.file ≠ g.file := by
  have hlonger : ∀ more, keyFile g = keyFile f ++ 58 :: more → f.file ≠ g.file := by
    intro more hfile heq
    have := congrArg List.length hfile
    rw [keyFile, keyFile, heq, List.length_append, List.length_cons] at this
    omega
  cases h with
  | unnamed other => exact other
  | shifted file => exact hlonger _ file
  | swallowed rest file => exact hlonger _ file

theorem Confused.dedupeKey_eq {f g : Finding} (h : Confused f g) : dedupeKey f = dedupeKey g := by
  rw [Loop.dedupeKey_eq, Loop.dedupeKey_eq]
  cases h with
  | unnamed other file line description => rw [file, keyLine_inj.mpr line, description]
  | shifted file description => simp [file, description]
  | swallowed rest file description => simp [file, description]

/-- Keys agree although one file is the longer one: the colons have shifted. -/
theorem confused_of_lt {f g : Finding} (hlt : (keyFile f).length < (keyFile g).length)
    (h : dedupeKey f = dedupeKey g) : Confused f g := by
  rw [dedupeKey_eq, dedupeKey_eq] at h
  rcases eq_of_append_cons_shift (colon_not_mem_keyLine f) hlt h with ⟨file, desc⟩ | hswallowed
  · exact .shifted file desc
  · obtain ⟨rest, file, desc⟩ := hswallowed
    exact .swallowed rest file desc

/-- **What the key identifies**: findings that are the same, and findings that are confused. -/
theorem dedupeKey_eq_iff {f g : Finding} :
    dedupeKey f = dedupeKey g ↔ SameFinding f g ∨ Confused f g ∨ Confused g f := by
  constructor
  · intro h
    rcases lt_trichotomy (keyFile f).length (keyFile g).length with hlt | hlength | hlt
    · exact .inr (.inl (confused_of_lt hlt h))
    · rw [dedupeKey_eq, dedupeKey_eq] at h
      obtain ⟨hfile, htail⟩ := List.append_inj h hlength
      obtain ⟨hline, hdesc⟩ := Splitting.append_cons_inj_of_not_mem (colon_not_mem_keyLine f)
        (colon_not_mem_keyLine g) (List.cons.inj htail).2
      rw [keyLine_inj] at hline
      by_cases hsame : f.file = g.file
      · exact .inl ⟨hsame, hline, hdesc⟩
      · exact .inr (.inl (.unnamed hsame hfile hline hdesc))
    · exact .inr (.inr (confused_of_lt hlt h.symm))
  · rintro (hsame | hconfused | hconfused)
    · exact hsame.dedupeKey_eq
    · exact hconfused.dedupeKey_eq
    · exact hconfused.dedupeKey_eq.symm

/-! ### The output -/

/-- Some finding of the list is the given one, and at least as severe. -/
def Represented (f : Finding) (findings : List Finding) : Prop :=
  ∃ g ∈ findings, SameFinding f g ∧ severityOrder f.severity ≤ severityOrder g.severity

theorem nodup_keys_dedupeStep {byKey : OrderedMap Text Finding} (h : byKey.keys.Nodup)
    (f : Finding) : (dedupeStep byKey f).keys.Nodup := by
  unfold dedupeStep
  split
  · exact OrderedMap.nodup_keys_set h _ _
  · split
    · exact OrderedMap.nodup_keys_set h _ _
    · exact h

theorem nodup_keys_foldl (findings : List Finding) : ∀ byKey : OrderedMap Text Finding,
    byKey.keys.Nodup → (findings.foldl dedupeStep byKey).keys.Nodup := by
  induction findings with
  | nil => exact fun _ h => h
  | cons f rest ih => exact fun byKey h => ih _ (nodup_keys_dedupeStep h f)

/-- No two collapsed findings have one key. -/
theorem eq_of_mem_dedupe {findings : List Finding} {f g : Finding} (hf : f ∈ dedupe findings)
    (hg : g ∈ dedupe findings) (hkey : dedupeKey f = dedupeKey g) : f = g := by
  have hnodup := nodup_keys_foldl findings [] List.nodup_nil
  have hget : ∀ k ∈ dedupe findings,
      (findings.foldl dedupeStep []).get? (dedupeKey k) = some k := by
    intro k hk
    obtain ⟨⟨key, _⟩, hentry, rfl⟩ := List.mem_map.mp hk
    have hfiled := (OrderedMap.get?_eq_some_iff hnodup).mpr hentry
    rw [dedupeKey_of_get?_foldl findings [] (by simp) _ _ hfiled]
    exact hfiled
  have := hget f hf
  rw [hkey, hget g hg] at this
  exact (Option.some.inj this).symm

theorem dedupe_represents_iff (findings : List Finding) :
    (∀ f ∈ findings, Represented f (dedupe findings)) ↔
      ∀ f ∈ findings, ∀ g ∈ findings, ¬Confused f g := by
  constructor
  · intro h f hf g hg hconfused
    obtain ⟨f', hf', hsame, -⟩ := h f hf
    obtain ⟨g', hg', hsame', -⟩ := h g hg
    have hkey : dedupeKey f' = dedupeKey g' := by
      rw [← hsame.dedupeKey_eq, ← hsame'.dedupeKey_eq, hconfused.dedupeKey_eq]
    rw [eq_of_mem_dedupe hf' hg' hkey] at hsame
    exact hconfused.file_ne (hsame.trans hsame'.symm).file
  · intro h f hf
    obtain ⟨g, hget, hsev⟩ := (dedupeInv findings).covers f hf
    have hg : g ∈ dedupe findings := OrderedMap.mem_values_of_get? hget
    have hkey := dedupeKey_of_get?_foldl findings [] (by simp) _ _ hget
    rcases dedupeKey_eq_iff.mp hkey.symm with hsame | hconfused | hconfused
    · exact ⟨g, hg, hsame, hsev⟩
    · exact absurd hconfused (h f hf g (mem_of_mem_dedupe hg))
    · exact absurd hconfused (h g (mem_of_mem_dedupe hg) f hf)

/-- **Collapsing loses nothing exactly when nothing is confused.**  Every finding that some review
raised has an output finding with its file, its line, its description up to letter case and at
least its severity if and only if no two raised findings are confused. -/
theorem aggregateReviews_represents_iff (reviews : List ReviewResult) (required : ℕ)
    (blockingSeverity : Severity) :
    (∀ f, Raised reviews f →
        Represented f (aggregateReviews ⟨reviews, required, blockingSeverity⟩).findings) ↔
      ∀ f g, Raised reviews f → Raised reviews g → ¬Confused f g := by
  have hraised : ∀ f, Raised reviews f ↔ f ∈ reviews.flatMap ReviewResult.findings := by
    intro f
    rw [List.mem_flatMap]
    rfl
  simp only [hraised, aggregateReviews_findings]
  rw [dedupe_represents_iff]
  exact ⟨fun h f g hf hg => h f hf g hg, fun h f hf g hg => h f g hf hg⟩

/-- Findings whose files hold no colon, and are not empty, are never confused. -/
theorem not_confused_of_plain {f g : Finding} (hg : 58 ∉ keyFile g)
    (hnamed : f.file ≠ some [] ∧ g.file ≠ some []) : ¬Confused f g := by
  intro h
  cases h with
  | unnamed other file =>
    unfold keyFile at file
    cases hf : f.file with
    | none =>
      cases hg' : g.file with
      | none => exact other (hf.trans hg'.symm)
      | some path =>
        rw [hf, hg'] at file
        exact hnamed.2 (hg'.trans (congrArg some file.symm))
    | some path =>
      cases hg' : g.file with
      | none =>
        rw [hf, hg'] at file
        exact hnamed.1 (hf.trans (congrArg some file))
      | some path' =>
        rw [hf, hg'] at file
        exact other (hf.trans ((congrArg some file).trans hg'.symm))
  | shifted file =>
    rw [file] at hg
    exact hg (List.mem_append_right _ List.mem_cons_self)
  | swallowed rest file =>
    rw [file] at hg
    exact hg (List.mem_append_right _ List.mem_cons_self)

/-! ### A finding that disappears -/

/-- One reviewer: line 3 of the file, and the line is named again in the words. -/
def plainFinding : Finding :=
  ⟨.high, some (lit "src/a.ts"), some 3, lit "5: unchecked", lit "Check", lit "agent", lit "review"⟩

/-- Another: the line it means is part of the file it names. -/
def suffixedFinding : Finding :=
  ⟨.high, some (lit "src/a.ts:3"), some 5, lit " unchecked", lit "Check", lit "agent",
    lit "review"⟩

omit [Host] in
/-- The second of the two is not in the output. -/
theorem suffixed_finding_disappears :
    ∃ f, Raised [⟨.requestChanges, [plainFinding], lit "One"⟩,
        ⟨.requestChanges, [suffixedFinding], lit "Two"⟩] f ∧
      ¬@Represented asciiHost f (@aggregateReviews asciiHost
        ⟨[⟨.requestChanges, [plainFinding], lit "One"⟩,
          ⟨.requestChanges, [suffixedFinding], lit "Two"⟩], 2, .high⟩).findings := by
  have houtput : (@aggregateReviews asciiHost
      ⟨[⟨.requestChanges, [plainFinding], lit "One"⟩,
        ⟨.requestChanges, [suffixedFinding], lit "Two"⟩], 2, .high⟩).findings =
      [plainFinding] := by decide +kernel
  refine ⟨suffixedFinding, ⟨_, List.mem_cons_of_mem _ (List.mem_singleton.mpr rfl), ?_⟩, ?_⟩
  · exact List.mem_singleton.mpr rfl
  · rw [houtput]
    rintro ⟨g, hg, hsame, -⟩
    rw [List.mem_singleton.mp hg] at hsame
    exact absurd (Option.some.inj (@SameFinding.line asciiHost _ _ hsame)) (by decide)

end Newsdeck.Loop

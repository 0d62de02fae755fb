import Newsdeck.Ecma.Rounding
import Newsdeck.Loop.PublicExports
import Newsdeck.Loop.SemverRanges

/-!
# Major upgrades in a `package.json`

A change of a `package.json` takes a dependency from one version range to another whose leading
number is greater.  `dependencyChanges` reads single lines and recognises some of the ranges.

* `get?_dependencyEntries_iff` — what is found under a name is what the last line gives it;
* `upgrade_reported_iff` — for which changes the major upgrade is reported.
-/

namespace Newsdeck.Loop

open Ecma

/-! ### Entries -/

/-- A line with one name, one value and nothing else but whitespace and a comma. -/
inductive EntryLine : Text → Text → Text → Prop
  | intro {a name b c value d comma e : Text} (ha : Spaces a) (hname : name ≠ [])
      (hname' : 34 ∉ name) (hb : Spaces b) (hc : Spaces c) (hvalue : value ≠ [])
        (hvalue' : 34 ∉ value)
      (hd : Spaces d) (hcomma : comma = [] ∨ comma = lit ",") (he : Spaces e) :
      EntryLine
        (a ++ 34 :: (name ++ 34 :: (b ++ 58 :: (c ++ 34 :: (value ++ 34 :: (d ++ (comma ++ e)))))))
        name value

theorem Spaces.not_mem {gap : Text} (h : Spaces gap) {c : ℕ} (hc : isSpace c = false) : c ∉ gap :=
  fun hmem => absurd (h c hmem) (by simp [hc])

theorem EntryLine.unique {line name value name' value' : Text} (h : EntryLine line name value)
    (h' : EntryLine line name' value') : name = name' ∧ value = value' := by
  have hquote : isSpace 34 = false := by decide
  have hcolon : isSpace 58 = false := by decide
  cases h with
  | intro ha _ hname hb hc _ hvalue _ _ _ =>
    generalize hline : _ ++ 34 :: _ = line at h'
    cases h' with
    | intro ha' _ hname' hb' hc' _ hvalue' _ _ _ =>
      obtain ⟨-, h₁⟩ := cut_unique hline (ha.not_mem hquote) (ha'.not_mem hquote)
      obtain ⟨rfl, h₂⟩ := cut_unique h₁ hname hname'
      obtain ⟨-, h₃⟩ := cut_unique h₂ (hb.not_mem hcolon) (hb'.not_mem hcolon)
      obtain ⟨-, h₄⟩ := cut_unique h₃ (hc.not_mem hquote) (hc'.not_mem hquote)
      obtain ⟨rfl, -⟩ := cut_unique h₄ hvalue hvalue'
      exact ⟨rfl, rfl⟩

section Captures

open Regex

theorem exec_dependencyLine {line : Text} {x : Cursor ℕ × Captures ℕ}
    (hx : dependencyLine.exec line = some x) : ∃ name value, EntryLine line name value ∧
      x.2.lookup 1 = some name ∧ x.2.lookup 2 = some value := by
  obtain ⟨u, v, rfl, hrun, -⟩ := exec_spec hx
  obtain ⟨_, ⟨hu, rfl⟩, _, h₁, _, h₂, _, h₃, _, h₄, _, h₅, _, h₆, _, h₇, _, h₈, _, h₉, _,
    h₁₀, _, h₁₁, _, h₁₂, _, h₁₃, hend, hlast⟩ := takes_of_run_done hrun
  clear hx hrun
  obtain rfl := List.reverse_eq_nil_iff.mp hu
  obtain ⟨a, _, rfl, ha, rfl⟩ := takes_many.mp h₁
  obtain ⟨_, rfl, rfl⟩ := takes_units.mp h₂
  obtain ⟨_, h₃', rfl⟩ := takes_group.mp h₃
  obtain ⟨name, _, rfl, hname, hname', rfl⟩ := takes_many1.mp h₃'
  obtain ⟨_, rfl, rfl⟩ := takes_units.mp h₄
  obtain ⟨b, _, rfl, hb, rfl⟩ := takes_many.mp h₅
  obtain ⟨_, rfl, rfl⟩ := takes_units.mp h₆
  obtain ⟨c, _, rfl, hc, rfl⟩ := takes_many.mp h₇
  obtain ⟨_, rfl, rfl⟩ := takes_units.mp h₈
  obtain ⟨_, h₉', rfl⟩ := takes_group.mp h₉
  obtain ⟨value, _, rfl, hvalue, hvalue', rfl⟩ := takes_many1.mp h₉'
  obtain ⟨_, rfl, rfl⟩ := takes_units.mp h₁₀
  obtain ⟨d, _, rfl, hd, rfl⟩ := takes_many.mp h₁₁
  obtain ⟨comma, _, hcomma, rfl, rfl⟩ := takes_opt_units.mp h₁₂
  obtain ⟨e, rest, rfl, he, rfl⟩ := takes_many.mp h₁₃
  obtain rfl : rest = [] := hend
  have hnone : ∀ {w : Text}, (∀ c ∈ w, decide (c ∉ lit "\"") = true) → 34 ∉ w :=
    fun hw hmem => absurd (hw 34 hmem) (by decide)
  refine ⟨name, value, ?_, ?_, ?_⟩
  · have h := EntryLine.intro ha hname (hnone hname') hb hc hvalue (hnone hvalue') hd hcomma he
    rw [List.append_nil]
    exact h
  · rw [hlast]
    exact congrArg some (take_consumed name _)
  · rw [hlast]
    exact congrArg some (take_consumed value _)

theorem exec_dependencyLine_ne_none {line name value : Text} (h : EntryLine line name value) :
    dependencyLine.exec line ≠ none := by
  cases h with
  | @intro a name b c value d comma e ha hname hname' hb hc hvalue hvalue' hd hcomma he =>
    have hquote : ∀ {w : Text}, 34 ∉ w → ∀ c ∈ w, decide (c ∉ lit "\"") = true := by
      intro w hw c hc
      refine decide_eq_true fun hmem => hw ?_
      rwa [List.mem_singleton.mp hmem] at hc
    apply exec_ne_none (u := [])
    exact ⟨_, ⟨rfl, rfl⟩, _, takes_many.mpr ⟨a, _, rfl, ha, rfl⟩, _,
      takes_units.mpr ⟨_, rfl, rfl⟩, _,
      takes_group.mpr ⟨_, takes_many1.mpr ⟨name, _, rfl, hname, hquote hname', rfl⟩, rfl⟩, _,
      takes_units.mpr ⟨_, rfl, rfl⟩, _, takes_many.mpr ⟨b, _, rfl, hb, rfl⟩, _,
      takes_units.mpr ⟨_, rfl, rfl⟩, _, takes_many.mpr ⟨c, _, rfl, hc, rfl⟩, _,
      takes_units.mpr ⟨_, rfl, rfl⟩, _,
      takes_group.mpr ⟨_, takes_many1.mpr ⟨value, _, rfl, hvalue, hquote hvalue', rfl⟩, rfl⟩, _,
      takes_units.mpr ⟨_, rfl, rfl⟩, _, takes_many.mpr ⟨d, _, rfl, hd, rfl⟩, _,
      takes_opt_units.mpr ⟨comma, _, hcomma, rfl, rfl⟩, _,
      takes_many.mpr ⟨e, [], (List.append_nil e).symm, he, rfl⟩, rfl, rfl⟩

end Captures

/-- The line is an entry with a value that is recognised. -/
def Gives (line name range : Text) : Prop :=
  EntryLine line name range ∧ dependencyValue.test range = true

theorem addEntry_eq_set {line name range : Text} (h : Gives line name range)
    (entries : OrderedMap Text Text) : addEntry entries line = entries.set name range := by
  obtain ⟨hentry, htest⟩ := h
  obtain ⟨x, hx⟩ := Option.ne_none_iff_exists'.mp (exec_dependencyLine_ne_none hentry)
  obtain ⟨name', range', hentry', hname, hrange⟩ := exec_dependencyLine hx
  obtain ⟨rfl, rfl⟩ := hentry.unique hentry'
  unfold addEntry
  rw [Regex.capture_of_exec hx, Regex.capture_of_exec hx, hname, hrange]
  exact if_pos htest

theorem addEntry_eq_self {line : Text} (h : ∀ name range, ¬Gives line name range)
    (entries : OrderedMap Text Text) : addEntry entries line = entries := by
  unfold addEntry
  split
  · rename_i name range hname hrange
    refine if_neg fun htest => ?_
    cases hx : dependencyLine.exec line with
    | none => simp [Regex.capture, hx] at hname
    | some x =>
      obtain ⟨name', range', hentry, hname', hrange'⟩ := exec_dependencyLine hx
      rw [Regex.capture_of_exec hx] at hname hrange
      obtain rfl := Option.some.inj (hname.symm.trans hname')
      obtain rfl := Option.some.inj (hrange.symm.trans hrange')
      exact h _ _ ⟨hentry, htest⟩
  · rfl

/-- The last of the lines that gives the name a recognised range gives it this one. -/
def LastGives (lines : List Text) (name range : Text) : Prop :=
  ∃ before line after, lines = before ++ line :: after ∧ Gives line name range ∧
    ∀ line' ∈ after, ∀ range', ¬Gives line' name range'

theorem LastGives.test {lines : List Text} {name range : Text} (h : LastGives lines name range) :
    dependencyValue.test range = true := by
  obtain ⟨before, line, after, -, hgives, -⟩ := h
  exact hgives.2

theorem lastGives_concat {lines : List Text} {line name range : Text} :
    LastGives (lines ++ [line]) name range ↔
      Gives line name range ∨ (∀ range', ¬Gives line name range') ∧ LastGives lines name range := by
  constructor
  · rintro ⟨before, last, after, heq, hgives, hlater⟩
    rcases List.eq_nil_or_concat after with rfl | ⟨after, final, rfl⟩
    · obtain ⟨-, hlast⟩ := List.append_inj' heq rfl
      obtain rfl := List.singleton_inj.mp hlast
      exact .inl hgives
    · rw [List.concat_eq_append] at heq hlater
      rw [← List.cons_append, ← List.append_assoc] at heq
      obtain ⟨rfl, hlast⟩ := List.append_inj' heq rfl
      obtain rfl := List.singleton_inj.mp hlast
      refine .inr ⟨hlater line (by simp), before, last, after, rfl, hgives, fun line' hmem => ?_⟩
      exact hlater line' (List.mem_append_left _ hmem)
  · rintro (hgives | ⟨hnone, before, last, after, rfl, hgives, hlater⟩)
    · exact ⟨lines, line, [], rfl, hgives, fun _ hmem => absurd hmem List.not_mem_nil⟩
    · refine ⟨before, last, after ++ [line], by simp, hgives, fun line' hmem => ?_⟩
      rcases List.mem_append.mp hmem with hmem | hmem
      · exact hlater line' hmem
      · rw [List.mem_singleton.mp hmem]
        exact hnone

/-- **What is found under a name** is what the last line gives it. -/
theorem get?_dependencyEntries_iff {lines : List Text} {name range : Text} :
    (dependencyEntries lines).get? name = some range ↔ LastGives lines name range := by
  induction lines using List.reverseRecOn with
  | nil => simp [dependencyEntries, LastGives]
  | append_singleton lines line ih =>
    rw [dependencyEntries_concat, lastGives_concat]
    by_cases hline : ∃ name' range', Gives line name' range'
    · obtain ⟨name', range', hgives⟩ := hline
      rw [addEntry_eq_set hgives, OrderedMap.get?_set]
      by_cases hname : name = name'
      · subst hname
        rw [if_pos rfl, Option.some.injEq]
        constructor
        · rintro rfl
          exact .inl hgives
        · rintro (h | ⟨hnone, -⟩)
          · exact (hgives.1.unique h.1).2
          · exact absurd hgives (hnone range')
      · have hnone : ∀ range, ¬Gives line name range := fun range h => hname (h.1.unique hgives.1).1
        rw [if_neg hname, ih]
        exact ⟨fun h => .inr ⟨hnone, h⟩, fun h => (h.resolve_left (hnone range)).2⟩
    · have hnone : ∀ name range, ¬Gives line name range :=
        fun name range h => hline ⟨name, range, h⟩
      rw [addEntry_eq_self hnone, ih]
      exact ⟨fun h => .inr ⟨hnone name, h⟩, fun h => (h.resolve_left (hnone name range)).2⟩

theorem nodup_dependencyEntries (lines : List Text) :
    (OrderedMap.keys (dependencyEntries lines)).Nodup := by
  induction lines using List.reverseRecOn with
  | nil => exact List.nodup_nil
  | append_singleton lines line ih =>
    rw [dependencyEntries_concat, addEntry]
    split
    · split
      · exact OrderedMap.nodup_keys_set ih _ _
      · exact ih
    · exact ih

/-! ### Changes of a specifier -/

/-- Where a `package.json` lists dependencies. -/
def dependencySections : List Text :=
  [lit "dependencies", lit "devDependencies", lit "peerDependencies", lit "optionalDependencies"]

/-- `manifest[section]?.[name]`, when it is a string. -/
def specifier (manifest : List (Text × Json)) (section' name : Text) : Option Text :=
  match Json.get? manifest section' with
  | some (.obj entries) =>
      match Json.get? entries name with
      | some (.str range) => some range
      | _ => none
  | _ => none

/-- A change of a manifest, by its lines, in which the specifier of a dependency goes from one range
to another with a greater leading number. -/
structure SpecifierChange where
  edits : List Edit
  old : List (Text × Json)
  new : List (Text × Json)
  old_parsed : Json.parse (join (lit "\n") (edits.filterMap Edit.before)) = some (.obj old)
  new_parsed : Json.parse (join (lit "\n") (edits.filterMap Edit.after)) = some (.obj new)
  listedIn : Text
  listedIn_mem : listedIn ∈ dependencySections
  name : Text
  fromRange : Semver.RangeSet
  toRange : Semver.RangeSet
  fromRange_old : specifier old listedIn name = some fromRange.text
  toRange_new : specifier new listedIn name = some toRange.text
  fromMajor : ℕ
  toMajor : ℕ
  leading_from : fromRange.leading = some fromMajor
  leading_to : toRange.leading = some toMajor
  greater : fromMajor < toMajor

namespace SpecifierChange

/-- What the diff shows of the change. -/
def file (change : SpecifierChange) (path : Text) : DiffFile :=
  { path := path
    status := .modified
    addedLines := change.edits.filterMap Edit.addedLine
    removedLines := change.edits.filterMap Edit.removedLine }

/-- The change is reported, as a major upgrade. -/
def Reported [Host] (change : SpecifierChange) (path : Text) : Prop :=
  ∃ reported ∈ dependencyChanges (change.file path), reported.name = change.name ∧
    reported.fromRange = some change.fromRange.text ∧ reported.toRange = some change.toRange.text ∧
    reported.kind = .upgraded ∧ reported.major = true

/-- Both ranges are plainly written, and the name's last recognised entries among the removed and
the added lines hold them. -/
structure Recognised (change : SpecifierChange) : Prop where
  plain_from : change.fromRange.Plain
  plain_to : change.toRange.Plain
  removed : LastGives (change.edits.filterMap Edit.removedLine) change.name change.fromRange.text
  added : LastGives (change.edits.filterMap Edit.addedLine) change.name change.toRange.text

end SpecifierChange

theorem decimal_injective : Function.Injective decimal := by
  intro m n h
  rw [← Json.digitsValue_decimal m, h, Json.digitsValue_decimal]

/-- The change of one entry, when both ranges are there and give their numbers. -/
theorem dependencyChange_eq {before : OrderedMap Text Text} {name fromRange toRange : Text}
    {m n : ℕ}
    (hfrom : before.get? name = some fromRange) (hm : leadingMajor fromRange = some (decimal m))
    (hn : leadingMajor toRange = some (decimal n)) (hlt : m < n) :
    dependencyChange before name toRange =
      some ⟨name, some fromRange, some toRange, .upgraded, true⟩ := by
  have hmajors : decimal m ≠ decimal n := fun h => hlt.ne (decimal_injective h)
  have hranges : ¬some fromRange = some toRange := by
    intro h
    rw [Option.some.inj h, hn] at hm
    exact hmajors (Option.some.inj hm).symm
  have hup : ¬Json.numberOfDigits (decimal n) < Json.numberOfDigits (decimal m) :=
    not_lt.mpr (Json.numberOfDigits_decimal_mono hlt.le)
  unfold dependencyChange
  simp only [hfrom, hranges, if_false, Option.bind_some, hm, hn, reduceCtorEq]
  simp [hmajors, dependencyChange.numberOfMajor, hup]

theorem major_of_dependencyChange {before : OrderedMap Text Text} {name toRange : Text}
    {change : DependencyChange} (h : dependencyChange before name toRange = some change) :
    change.name = name ∧ change.fromRange = before.get? name ∧ change.toRange = some toRange ∧
      (change.major = true → ∃ fromRange, before.get? name = some fromRange ∧
        leadingMajor fromRange ≠ none ∧ leadingMajor toRange ≠ none) := by
  unfold dependencyChange at h
  dsimp only at h
  split at h
  · cases h
  · obtain rfl := Option.some.inj h
    refine ⟨rfl, rfl, rfl, fun hmajor => ?_⟩
    obtain ⟨hfrom, hto, -⟩ := of_decide_eq_true hmajor
    cases hget : before.get? name with
    | none =>
      rw [hget] at hfrom
      exact absurd rfl hfrom
    | some fromRange =>
      rw [hget] at hfrom
      exact ⟨fromRange, rfl, hfrom, hto⟩

theorem SpecifierChange.reported_iff [Host] {change : SpecifierChange} {path : Text}
    (hpath : (lit "package.json").isSuffixOf path = true) :
    change.Reported path ↔ change.Recognised := by
  constructor
  · rintro ⟨reported, hmem, hname, hfrom, hto, hkind, hmajor⟩
    obtain ⟨-, entry, hentry, hchange⟩ := (upgrade_mem_iff hkind).mp hmem
    obtain ⟨hname', hfrom', hto', hleading⟩ := major_of_dependencyChange hchange
    obtain ⟨fromRange, hget, hfromMajor, htoMajor⟩ := hleading hmajor
    rw [hto', Option.some.injEq] at hto
    rw [← hname', hname] at hget hfrom'
    obtain rfl : fromRange = change.fromRange.text :=
      Option.some.inj (hget.symm.trans (hfrom'.symm.trans hfrom))
    rw [hto] at htoMajor
    have hremoved := get?_dependencyEntries_iff.mp hget
    have hadded := get?_dependencyEntries_iff.mp
      ((OrderedMap.get?_eq_some_iff (nodup_dependencyEntries _)).mpr hentry)
    rw [← hname', hname, hto] at hadded
    exact
      { plain_from := (Semver.RangeSet.recognised_iff change.leading_from).mp
          ⟨hremoved.test, hfromMajor⟩
        plain_to := (Semver.RangeSet.recognised_iff change.leading_to).mp ⟨hadded.test, htoMajor⟩
        removed := hremoved
        added := hadded }
  · intro h
    have hget := get?_dependencyEntries_iff.mpr h.removed
    have hentry := (OrderedMap.get?_eq_some_iff (nodup_dependencyEntries _)).mp
      (get?_dependencyEntries_iff.mpr h.added)
    have hchange := dependencyChange_eq hget
      (Semver.RangeSet.leadingMajor_text change.leading_from h.plain_from)
      (Semver.RangeSet.leadingMajor_text change.leading_to h.plain_to) change.greater
    exact ⟨_, (upgrade_mem_iff rfl).mpr ⟨hpath, _, hentry, hchange⟩, rfl, rfl, rfl, rfl, rfl⟩

/-- **When a major upgrade is seen.**  It is reported and makes the change high risk exactly when
both ranges are single comparators with a minor part, plainly written, and the entries stand on
lines of their own, the last of their name. -/
theorem upgrade_reported_iff [Host] (policy : LoopPolicy) {signals : List CompiledRegExp}
    (hsignals : compileSignals policy.controlPlane.policySignals = some signals) (path : Text)
    (hpath : (lit "package.json").isSuffixOf path = true) (labels : List Text)
    (before after : List DiffFile) (change : SpecifierChange) :
    (change.Reported path ∧ ∃ assessment,
      classifyRisk ⟨⟨before ++ change.file path :: after⟩, labels, policy⟩ = some assessment ∧
        assessment.risk = .high) ↔ change.Recognised := by
  rw [← change.reported_iff hpath, and_iff_left_iff_imp]
  rintro ⟨reported, hmem, -, -, -, hkind, hmajor⟩
  obtain ⟨assessment, hassess, hrisk⟩ :=
    classifyRisk_spec hsignals ⟨before ++ change.file path :: after⟩ labels
  have hreaches : Reaches policy signals (change.file path) .high :=
    .inl (.inr (.inr (.inr ⟨reported, hmem, hmajor, hkind⟩)))
  refine ⟨assessment, hassess, le_antisymm le_top ((hrisk .high).mpr ?_)⟩
  exact .inr (.inr (.inr (.inr ⟨_, List.mem_append_right _ List.mem_cons_self, hreaches⟩)))

/-! ### An upgrade without a minor part -/

/-- `^3` and the like. -/
def caretMajor (n : ℕ) : Semver.RangeSet where
  first := ⟨0, .comparators ⟨.caret, [], .major (.number n), by simp⟩ [], 0⟩
  more := []

/-- A manifest with one dependency, the range behind its name. -/
def manifestOf (range : Text) : List (Text × Json) :=
  [(lit "dependencies", .obj [(lit "zod", .str range)])]

theorem parse_manifestOf (range : Text) :
    Json.parse (@Json.stringify asciiHost 2 (.obj (manifestOf range))) =
      some (.obj (manifestOf range)) :=
  @Json.parse_stringify asciiHost 2 _ (by simp [manifestOf, Json.Plain, Json.PlainMembers])

/-- `zod` goes from `^3` to `^4`. -/
def zodUpgraded : SpecifierChange where
  edits := [.kept (lit "\x7b"), .kept (lit "  \"dependencies\": \x7b"),
    .removed (lit "    \"zod\": \"^3\""), .added (lit "    \"zod\": \"^4\""), .kept (lit "  \x7d"),
    .kept (lit "\x7d")]
  old := manifestOf (lit "^3")
  new := manifestOf (lit "^4")
  old_parsed := by
    refine (congrArg Json.parse ?_).trans (parse_manifestOf (lit "^3"))
    decide +kernel
  new_parsed := by
    refine (congrArg Json.parse ?_).trans (parse_manifestOf (lit "^4"))
    decide +kernel
  listedIn := lit "dependencies"
  listedIn_mem := by decide
  name := lit "zod"
  fromRange := caretMajor 3
  toRange := caretMajor 4
  fromRange_old := by decide +kernel
  toRange_new := by decide +kernel
  fromMajor := 3
  toMajor := 4
  leading_from := rfl
  leading_to := rfl
  greater := by decide

theorem samplePolicy_signals :
    @compileSignals asciiHost (samplePolicy .low none).controlPlane.policySignals = some [] := rfl

/-- A major upgrade; nothing is reported as one, and the risk is low. -/
theorem zod_upgrade_unreported :
    zodUpgraded.fromRange.leading = some 3 ∧ zodUpgraded.toRange.leading = some 4 ∧
    (@dependencyChanges asciiHost (zodUpgraded.file (lit "package.json"))).map
      DependencyChange.major = [false] ∧
    (@classifyRisk asciiHost ⟨⟨[zodUpgraded.file (lit "package.json")]⟩, [],
      samplePolicy .low none⟩).map RiskAssessment.risk = some .low := by
  refine ⟨rfl, rfl, ?_, ?_⟩ <;> decide +kernel

/-- `^3.22.0` and the like. -/
def caretPatch (major minor patch : ℕ) : Semver.RangeSet where
  first :=
    ⟨0, .comparators ⟨.caret, [], .patch (.number major) (.number minor) (.number patch) none none,
    by simp⟩ [], 0⟩
  more := []

/-- `zod` goes from `^3.22.0` to `^4.0.1`. -/
def zodBumped : SpecifierChange where
  edits := [.kept (lit "\x7b"), .kept (lit "  \"dependencies\": \x7b"),
    .removed (lit "    \"zod\": \"^3.22.0\""), .added (lit "    \"zod\": \"^4.0.1\""),
    .kept (lit "  \x7d"), .kept (lit "\x7d")]
  old := manifestOf (lit "^3.22.0")
  new := manifestOf (lit "^4.0.1")
  old_parsed := by
    refine (congrArg Json.parse ?_).trans (parse_manifestOf (lit "^3.22.0"))
    decide +kernel
  new_parsed := by
    refine (congrArg Json.parse ?_).trans (parse_manifestOf (lit "^4.0.1"))
    decide +kernel
  listedIn := lit "dependencies"
  listedIn_mem := by decide
  name := lit "zod"
  fromRange := caretPatch 3 22 0
  toRange := caretPatch 4 0 1
  fromRange_old := by decide +kernel
  toRange_new := by decide +kernel
  fromMajor := 3
  toMajor := 4
  leading_from := rfl
  leading_to := rfl
  greater := by decide

theorem zodBumped_recognised : zodBumped.Recognised where
  plain_from := ⟨_, rfl, rfl, rfl, trivial, trivial, .inl rfl⟩
  plain_to := ⟨_, rfl, rfl, rfl, trivial, trivial, .inl rfl⟩
  removed := get?_dependencyEntries_iff.mp (by decide +kernel)
  added := get?_dependencyEntries_iff.mp (by decide +kernel)

/-- The same upgrade, with the other parts of the versions written out. -/
theorem upgrade_reported_zod :
    @SpecifierChange.Reported asciiHost zodBumped (lit "package.json") ∧ ∃ assessment,
      @classifyRisk asciiHost ⟨⟨[] ++ zodBumped.file (lit "package.json") :: []⟩, [],
        samplePolicy .low none⟩ = some assessment ∧ assessment.risk = .high :=
  (@upgrade_reported_iff asciiHost (samplePolicy .low none) [] samplePolicy_signals
    (lit "package.json") (by decide) [] [] [] zodBumped).mpr zodBumped_recognised

end Newsdeck.Loop

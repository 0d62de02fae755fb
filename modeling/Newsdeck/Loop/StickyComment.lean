import Newsdeck.Ecma.Replace
import Newsdeck.Loop.StateRoundTrip
import Newsdeck.Loop.Summary
import Mathlib.Data.List.Forall2

/-!
# Reading the state back out of the sticky comment

The summary stands in front of the state block, so a marker with a fence behind it anywhere in the
summary hides the block that was written.

* `framed_summary` — the summary is its raw fields, each between delimiters that neither a marker
  nor a fence can cross, and text in which neither begins;
* `state_survives_iff` — so the state that is written is the state that is read exactly when no raw
  field holds a marker with a fence behind it, in the same field or a later one.
-/

namespace Newsdeck.Loop

open Ecma Framing

/-! ### Delimiters of markers and fences -/

/-- Markers begin with `<!--` and end with `>`, fences begin with three backticks and end with a
line break; neither holds a colon, a bar or a closing parenthesis. -/
def blockDelimiters : Delimiters ℕ where
  heads := [lit "<!--", lit "```"]
  hard := fun c => c ∈ lit ":|)"
  soft := fun c => c ∈ lit " `"

theorem isSpace_not_hard {c : ℕ} (h : isSpace c = true) : c ∉ lit ":|)" := by
  intro hmem
  have hcases : c = 58 ∨ c = 124 ∨ c = 41 := by simpa [lit] using hmem
  rcases hcases with rfl | rfl | rfl <;> exact absurd h (by decide)

theorem bounds_isMarker : blockDelimiters.Bounds IsMarker where
  starts := by
    rintro m ⟨ws, ws', -, -, rfl⟩
    exact ⟨lit "<!--", by simp [blockDelimiters], by decide, List.prefix_append _ _⟩
  free := by
    rintro m ⟨ws, ws', hws, hws', rfl⟩ c hc
    simp only [List.mem_append] at hc
    have hfixed : ∀ c ∈ lit "<!--" ++ lit "newsdeck-loop-state" ++ lit "-->", c ∉ lit ":|)" := by
      decide
    rcases hc with hc | hc | hc | hc | hc
    · exact hfixed c (by simp only [List.mem_append]; exact .inl (.inl hc))
    · exact isSpace_not_hard (hws c hc)
    · exact hfixed c (by simp only [List.mem_append]; exact .inl (.inr hc))
    · exact isSpace_not_hard (hws' c hc)
    · exact hfixed c (by simp only [List.mem_append]; exact .inr hc)
  ends := by
    rintro m ⟨ws, ws', -, -, rfl⟩ c hc
    have hlast : ∀ s : Text, (s ++ lit "-->").getLast? = some 62 := by
      intro s
      rw [List.getLast?_append_of_ne_nil _ (by decide)]
      decide
    simp only [← List.append_assoc, hlast, Option.mem_def, Option.some.injEq] at hc
    subst hc
    exact (by decide : 62 ∉ lit " `")

theorem bounds_isFence : blockDelimiters.Bounds IsFence where
  starts := by
    rintro f ⟨ws, -, rfl⟩
    exact ⟨lit "```", by simp [blockDelimiters], by decide,
      (by decide : lit "```" <+: lit "```json").trans (List.prefix_append _ _)⟩
  free := by
    rintro f ⟨ws, hws, rfl⟩ c hc
    simp only [List.mem_append, List.mem_singleton] at hc
    have hfixed : ∀ c ∈ lit "```json", c ∉ lit ":|)" := by decide
    rcases hc with hc | hc | rfl
    · exact hfixed c hc
    · exact isSpace_not_hard (hws c hc)
    · exact (by decide : 10 ∉ lit ":|)")
  ends := by
    rintro f ⟨ws, -, rfl⟩ c hc
    simp only [← List.append_assoc, List.getLast?_concat, Option.mem_def, Option.some.injEq] at hc
    subst hc
    exact (by decide : 10 ∉ lit " `")

/-! ### Inert text -/

instance (t : Text) : Decidable (blockDelimiters.Inert t) :=
  inferInstanceAs (Decidable (∀ h ∈ [lit "<!--", lit "```"], _))

instance (c : ℕ) : Decidable (blockDelimiters.Neutral c) :=
  inferInstanceAs (Decidable (∀ h ∈ [lit "<!--", lit "```"], _))

theorem inert_of_free {t : Text} (hlt : 60 ∉ t) (htick : 96 ∉ t) : blockDelimiters.Inert t := by
  intro h hh hocc
  have hheads : h = lit "<!--" ∨ h = lit "```" := by simpa [blockDelimiters] using hh
  rcases hheads with rfl | rfl
  · exact hlt (hocc.subset (by decide))
  · exact htick (hocc.subset (by decide))

theorem inert_decimal (n : ℕ) : blockDelimiters.Inert (decimal n) := by
  apply inert_of_free <;>
  · intro hmem
    have := decimal_digit hmem
    omega

theorem not_mem_replaceAll {pattern replacement : Text} {c : ℕ} (hne : replacement ≠ [])
    (hc : c ∉ replacement) {t : Text} (h : c ∉ t) : c ∉ replaceAll pattern replacement t := by
  intro hmem
  have hinfix : [c] <:+: replaceAll pattern replacement t := (List.singleton_infix_iff _ _).mpr hmem
  refine h ((List.singleton_infix_iff _ _).mp (infix_of_infix_replaceAll (by simp) hne ?_ hinfix))
  intro d hd hdc
  exact hc (List.mem_singleton.mp hdc ▸ hd)

/-- **Sanitised text is inert.** -/
theorem inert_sanitiseForMarkdown (value : Text) :
    blockDelimiters.Inert (sanitiseForMarkdown value) := by
  have hopen : ∀ t, ¬ lit "<!--" <:+: replaceAll (lit "<!--") (lit "<!––") t :=
    not_infix_replaceAll (by decide) (show lit "<!––" = lit "<!" ++ 8211 :: [8211] by decide)
      (by decide) (by decide) (by decide)
  have htick : ∀ t, 96 ∉ replaceAll (lit "`") (lit "'") t := fun t hmem =>
    not_infix_replaceAll (by decide) (show lit "'" = [] ++ 39 :: [] by decide) (by decide)
      (by decide) (by decide) t ((List.singleton_infix_iff _ _).mpr hmem)
  intro h hh hocc
  have hheads : h = lit "<!--" ∨ h = lit "```" := by simpa [blockDelimiters] using hh
  rcases hheads with rfl | rfl
  · exact hopen _ (infix_of_infix_replaceAll (by decide) (by decide) (by decide) hocc)
  · have hall : 96 ∉ sanitiseForMarkdown value :=
      not_mem_replaceAll (by decide) (by decide)
        (not_mem_replaceAll (by decide) (by decide) (htick _))
    exact hall (hocc.subset (by decide))

/-! ### Framed text -/

theorem inert_append_cons {s t : Text} {c : ℕ} (hs : blockDelimiters.Inert s)
    (hc : blockDelimiters.Neutral c) (ht : blockDelimiters.Inert t) :
    blockDelimiters.Inert (s ++ c :: t) := hs.append_cons hc ht

/-- Framed texts joined at line breaks, or at another neutral separator. -/
theorem framed_join {c : ℕ} {rest : Text} (hc : blockDelimiters.Neutral c)
    (hrest : ∀ t fields, Framed blockDelimiters t fields →
      Framed blockDelimiters (rest ++ t) fields) {texts : List Text} {fields : List (List Text)}
    (h : List.Forall₂ (Framed blockDelimiters) texts fields) :
    Framed blockDelimiters (join (c :: rest) texts) fields.flatten := by
  induction h with
  | nil => exact .inert (show blockDelimiters.Inert [] by decide)
  | @cons t f texts fields ht hall ih =>
    cases hall with
    | nil => simpa [join] using ht
    | @cons t' f' texts' fields' ht' hall' =>
      have happend := ht.append hc (hrest _ _ ih)
      simpa [join, List.intercalate_cons_cons, List.flatten_cons] using happend

theorem framed_lines {texts : List Text} {fields : List (List Text)}
    (h : List.Forall₂ (Framed blockDelimiters) texts fields) :
    Framed blockDelimiters (join (lit "\n") texts) fields.flatten :=
  @framed_join 10 [] (by decide) (fun t _ ht => ht) _ _ h

/-- Lines without fields. -/
theorem forall₂_inert {texts : List Text} (h : ∀ t ∈ texts, blockDelimiters.Inert t) :
    List.Forall₂ (Framed blockDelimiters) texts (texts.map fun _ => []) := by
  rw [List.forall₂_map_right_iff, List.forall₂_same]
  exact fun t ht => .inert (h t ht)

/-- One line for each element, with its fields. -/
theorem forall₂_lines {α : Type} {as : List α} {line : α → Text} {fields : α → List Text}
    (h : ∀ a ∈ as, Framed blockDelimiters (line a) (fields a)) :
    List.Forall₂ (Framed blockDelimiters) (as.map line) (as.map fields) := by
  rw [List.forall₂_map_left_iff, List.forall₂_map_right_iff, List.forall₂_same]
  exact h

theorem inert_reasonLine (reason : Text) : blockDelimiters.Inert (reasonLine reason) := by
  have h := inert_append_cons (s := lit "-") (c := 32) (by decide) (by decide)
    (inert_sanitiseForMarkdown reason)
  simpa [reasonLine, lit] using h

theorem inert_riskReasonLine (reason : RiskReason) :
    blockDelimiters.Inert (riskReasonLine reason) := by
  have hhead : blockDelimiters.Inert (lit "- `" ++ riskText reason.risk ++ lit "` from " ++
      riskSourceText reason.source ++ lit ":") := by
    cases reason.risk <;> cases reason.source <;> decide
  have h := inert_append_cons (c := 32) hhead (by decide) (inert_sanitiseForMarkdown reason.detail)
  rw [riskReasonLine, show lit ": " = lit ":" ++ [32] by decide]
  simpa only [List.append_assoc, List.singleton_append] using h

theorem framed_checkLine (check : CheckState) :
    Framed blockDelimiters (checkLine check) [check.name] := by
  have htail : blockDelimiters.Inert (32 :: checkConclusionText check.conclusion) := by
    cases check.conclusion <;> decide
  have h := Framed.field (u := lit "-") (s := []) (l := 32) (c := 58) check.name
    (by decide : blockDelimiters.Inert _) (by decide) (by simp) (by decide : 58 ∈ lit ":|)")
    (.inert htail)
  refine (congrArg (Framed blockDelimiters · [check.name]) ?_).mpr h
  rw [checkLine, show lit "- " = lit "-" ++ [32] by decide, show lit ": " = [58, 32] by decide]
  simp only [List.append_assoc, List.cons_append, List.nil_append]

/-- The two sanitised cells at the end of a finding's row. -/
theorem inert_findingCells (finding : Finding) :
    blockDelimiters.Inert (lit " " ++ sanitiseForMarkdown finding.description ++ lit " | " ++
      sanitiseForMarkdown finding.suggestedAction ++ lit " |") := by
  have haction := inert_append_cons (c := 32) (inert_sanitiseForMarkdown finding.suggestedAction)
    (by decide) (by decide : blockDelimiters.Inert (lit "|"))
  have hcell := inert_append_cons (s := lit "|") (c := 32) (by decide) (by decide) haction
  have hboth := inert_append_cons (c := 32) (inert_sanitiseForMarkdown finding.description)
    (by decide) hcell
  have h := inert_append_cons (s := []) (c := 32) (by decide) (by decide) hboth
  simpa [lit] using h

theorem framed_findingRow (finding : Finding) :
    Framed blockDelimiters (findingRow finding) finding.file.toList := by
  have hhead : blockDelimiters.Inert (lit "| " ++ severityText finding.severity ++ lit " |") := by
    cases finding.severity <;> decide
  have hrow : ∀ file, findingRow { finding with file := some file } =
      (lit "| " ++ severityText finding.severity ++ lit " |") ++ 32 :: (file ++ ([32] ++ 124 ::
        (lit " " ++ sanitiseForMarkdown finding.description ++ lit " | " ++
          sanitiseForMarkdown finding.suggestedAction ++ lit " |"))) := by
    intro file
    simp [findingRow, lit]
  have hfile : ∀ file, Framed blockDelimiters (findingRow { finding with file := some file })
      [file] := by
    intro file
    rw [hrow]
    exact Framed.field file hhead (by decide) (by decide : ∀ c ∈ [32], c ∈ lit " `")
      (by decide : 124 ∈ lit ":|)") (.inert (inert_findingCells finding))
  obtain ⟨severity, file, line, description, action, source, category⟩ := finding
  cases file with
  | some file => exact hfile file
  | none =>
    refine .inert ?_
    have h := inert_append_cons (c := 124)
      (inert_append_cons (c := 32) hhead (by decide) (by decide : blockDelimiters.Inert (lit "— ")))
      (by decide) (inert_findingCells ⟨severity, none, line, description, action, source, category⟩)
    simpa [findingRow, lit] using h

theorem framed_occurrenceText (occurrence : RecurrenceOccurrence) :
    Framed blockDelimiters (occurrenceText occurrence)
      [lit "`" ++ occurrence.headSha.take 12] := by
  have hhead : blockDelimiters.Inert (lit "attempt " ++ decimal occurrence.attempt ++ lit " ") := by
    have h := inert_append_cons (s := lit "attempt") (c := 32) (by decide) (by decide)
      (inert_append_cons (c := 32) (inert_decimal occurrence.attempt) (by decide)
        (by decide : blockDelimiters.Inert []))
    simpa [lit] using h
  have h := Framed.field (l := 40) (s := lit "`") (c := 41) (lit "`" ++ occurrence.headSha.take 12)
    hhead (by decide) (by decide : ∀ c ∈ lit "`", c ∈ lit " `") (by decide : 41 ∈ lit ":|)")
    (.inert (by decide : blockDelimiters.Inert []))
  simpa [occurrenceText, lit] using h

/-- The fields of a recurring finding's line. -/
def occurrenceFields (recurring : RecurringFinding) : List Text :=
  recurring.occurrences.map fun occurrence => lit "`" ++ occurrence.headSha.take 12

theorem framed_recurringLine (recurring : RecurringFinding) :
    Framed blockDelimiters (recurringLine recurring) (occurrenceFields recurring) := by
  have hall : ∀ occurrence ∈ recurring.occurrences, Framed blockDelimiters
      (occurrenceText occurrence) [lit "`" ++ occurrence.headSha.take 12] :=
    fun occurrence _ => framed_occurrenceText occurrence
  have hheads := @framed_join 44 [32] (by decide)
    (fun t fields ht => ht.prepend (u := []) (by decide) (by decide)) _ _ (forall₂_lines hall)
  have hfields : (recurring.occurrences.map fun occurrence =>
      [lit "`" ++ occurrence.headSha.take 12]).flatten = occurrenceFields recurring := by
    rw [← List.flatMap_def]
    exact List.map_eq_flatMap.symm
  rw [hfields] at hheads
  have hlead : blockDelimiters.Inert (lit "- " ++
      sanitiseForMarkdown recurring.finding.description ++ lit " — survived") := by
    have h := inert_append_cons (s := lit "-") (c := 32) (by decide) (by decide)
      (inert_append_cons (c := 32) (inert_sanitiseForMarkdown recurring.finding.description)
        (by decide) (by decide : blockDelimiters.Inert (lit "— survived")))
    simpa [lit] using h
  have htail : blockDelimiters.Inert
      (lit " Diff those heads to see what was tried before attempting another fix.") :=
    inert_of_free (by decide) (by decide)
  have h := (hheads.append (c := 46) (by decide) (.inert htail)).prepend (c := 32) hlead (by decide)
  rw [List.append_nil] at h
  refine (congrArg (Framed blockDelimiters · (occurrenceFields recurring)) ?_).mp h
  rw [recurringLine, show lit " — survived " = lit " — survived" ++ [32] by decide,
    show lit ". Diff those heads to see what was tried before attempting another fix." =
      46 :: lit " Diff those heads to see what was tried before attempting another fix." by decide,
    show lit ", " = 44 :: [32] by decide]
  simp only [List.append_assoc, List.cons_append, List.nil_append]

theorem inert_tableRow {key value : Text}
    (hkey : blockDelimiters.Inert (lit "| " ++ key ++ lit " |"))
    (hvalue : blockDelimiters.Inert value) : blockDelimiters.Inert (tableRow (key, value)) := by
  have h := inert_append_cons (c := 32) hkey (by decide)
    (inert_append_cons (c := 32) hvalue (by decide) (by decide : blockDelimiters.Inert (lit "|")))
  rw [tableRow, show lit " | " = lit " |" ++ [32] by
    decide, show lit " |" = 32 :: lit "|" by decide]
  rw [show lit " |" = 32 :: lit "|" by decide] at h
  simpa only [List.append_assoc, List.cons_append, List.nil_append] using h

theorem inert_attempts (attempts limit : ℕ) :
    blockDelimiters.Inert (decimal attempts ++ lit " of " ++ decimal limit) := by
  have h := inert_append_cons (c := 32) (inert_decimal attempts) (by decide)
    (inert_append_cons (s := lit "of") (c := 32) (by decide) (by decide) (inert_decimal limit))
  simpa [lit] using h

/-- Lines without fields add none. -/
theorem flatten_map_nil {α : Type} (as : List α) :
    (as.map fun _ => ([] : List Text)).flatten = [] := by
  induction as with
  | nil => rfl
  | cons a as ih => exact ih

theorem framed_findingRows (findings : List Finding) :
    Framed blockDelimiters (join (lit "\n") (findings.map findingRow))
      (findings.filterMap Finding.file) := by
  have hall : ∀ finding ∈ findings, Framed blockDelimiters
      (findingRow finding) finding.file.toList :=
    fun finding _ => framed_findingRow finding
  have h := framed_lines (forall₂_lines hall)
  rwa [← List.flatMap_def, ← List.filterMap_eq_flatMap_toList] at h

/-- Sections with their fields, in order. -/
def Sections (texts : List Text) (fields : List Text) : Prop :=
  ∃ parts, List.Forall₂ (Framed blockDelimiters) texts parts ∧ parts.flatten = fields

theorem Sections.append {texts texts' fields fields' : List Text} (h : Sections texts fields)
    (h' : Sections texts' fields') : Sections (texts ++ texts') (fields ++ fields') := by
  obtain ⟨parts, hall, rfl⟩ := h
  obtain ⟨parts', hall', rfl⟩ := h'
  exact ⟨parts ++ parts', List.rel_append hall hall', List.flatten_append⟩

theorem sections_inert {texts : List Text} (h : ∀ t ∈ texts, blockDelimiters.Inert t) :
    Sections texts [] := ⟨_, forall₂_inert h, flatten_map_nil texts⟩

/-- One line for each element. -/
theorem sections_lines {α : Type} {as : List α} {line : α → Text} {fields : α → List Text}
    (h : ∀ a ∈ as, Framed blockDelimiters (line a) (fields a)) :
    Sections (as.map line) (as.flatMap fields) := ⟨_, forall₂_lines h, List.flatMap_def.symm⟩

theorem sections_findings (findings : List Finding) :
    Sections (findingsSection findings) (findings.filterMap Finding.file) := by
  unfold findingsSection
  split
  · have htitle : blockDelimiters.Inert
      (lit "**Findings (" ++ decimal findings.length ++ lit ")**") := by
      refine inert_of_free ?_ ?_ <;>
      · simp only [List.mem_append, not_or]
        refine ⟨⟨by decide, fun hmem => ?_⟩, by decide⟩
        have := decimal_digit hmem
        omega
    refine ⟨[[], [], [], [], [], findings.filterMap Finding.file],
      .cons (.inert (by decide)) (.cons (.inert htitle) (.cons (.inert (by decide))
        (.cons (.inert (inert_of_free (by decide) (by decide))) (.cons (.inert (by decide))
          (.cons (framed_findingRows findings) .nil))))), by simp⟩
  · rename_i h
    have hnil : findings = [] := by
      rw [← List.length_eq_zero_iff]
      omega
    subst hnil
    exact ⟨[], .nil, rfl⟩

theorem sections_recurrence (recurrence : List RecurringFinding) :
    Sections (recurrenceSection recurrence) (recurrence.flatMap occurrenceFields) := by
  unfold recurrenceSection
  split
  · have hlines : Sections (recurrence.map recurringLine) (recurrence.flatMap occurrenceFields) :=
      ⟨_, forall₂_lines fun recurring _ => framed_recurringLine recurring, rfl⟩
    refine (sections_inert ?_).append hlines
    simp only [List.forall_mem_cons]
    exact ⟨by decide, inert_of_free (by decide) (by decide), by decide, by simp⟩
  · rename_i h
    have hnil : recurrence = [] := by
      rw [← List.length_eq_zero_iff]
      omega
    subst hnil
    exact ⟨[], .nil, rfl⟩

/-! ### Two states that print alike -/

/-- A state that differs from the fresh one and prints alike in the summary. -/
def reviewedState : LoopState := { initialState none with lastReviewStatus := some .approve }

theorem fits_initialState : (initialState none).Fits where
  issue := by simp [initialState]
  reviewAttempts := by simp [initialState]
  count := by simp [initialState]
  history := by simp [initialState]

theorem fits_reviewedState : reviewedState.Fits where
  issue := by simp [reviewedState, initialState]
  reviewAttempts := by simp [reviewedState, initialState]
  count := by simp [reviewedState, initialState]
  history := by simp [reviewedState, initialState]

/-! ### The summary -/

section

variable [Host]

theorem framed_issueRow (view : PullRequestView) :
    Framed blockDelimiters (tableRow (lit "Issue",
      (view.issue.map fun issue => lit "#" ++ issueText issue).getD (lit "—")))
      (view.issue.map issueText).toList := by
  cases view.issue with
  | none => exact .inert (by rw [Option.map_none, Option.getD_none]; decide)
  | some issue =>
    have h := Framed.field (u := lit "| Issue | ") (l := 35) (s := [32]) (c := 124)
      (issueText issue)
      (by decide : blockDelimiters.Inert _) (by decide) (by decide : ∀ c ∈ [32], c ∈ lit " `")
      (by decide : 124 ∈ lit ":|)") (.inert (by decide : blockDelimiters.Inert []))
    simpa [tableRow, lit] using h

theorem framed_table (view : PullRequestView) :
    Framed blockDelimiters (table (statusRows view)) (view.issue.map issueText).toList := by
  have hrows : ∀ row ∈ (statusRows view).tail, blockDelimiters.Inert (tableRow row) := by
    simp only [statusRows, List.tail_cons, List.forall_mem_cons]
    refine ⟨inert_tableRow (by decide) ?_, inert_tableRow (by decide) ?_,
      inert_tableRow (by decide) (inert_attempts _ _), inert_tableRow (by decide) ?_,
      inert_tableRow (by decide) ?_, inert_tableRow (by decide) ?_, by simp⟩
    · cases view.risk.risk <;> decide
    · cases view.review.status <;> decide
    · cases view.outcome.riskGate <;> decide
    · cases view.outcome.reviewGate <;> decide
    · cases view.outcome.decision <;> decide
  have hall : List.Forall₂ (Framed blockDelimiters)
      (lit "| | |" :: lit "| --- | --- |" :: (statusRows view).map tableRow)
      ([] :: [] :: (view.issue.map issueText).toList ::
        ((statusRows view).tail.map tableRow).map fun _ => []) := by
    refine .cons (.inert (by decide)) (.cons (.inert (by decide))
      (.cons (framed_issueRow view) (forall₂_inert ?_)))
    intro t ht
    obtain ⟨row, hrow, rfl⟩ := List.mem_map.mp ht
    exact hrows row hrow
  have h := framed_lines hall
  simp only [List.flatten_cons, List.nil_append, flatten_map_nil, List.append_nil] at h
  exact h

/-- **The summary is framed.**  Its fields are the raw ones; the two line breaks in front of the
state block belong to the fixed text. -/
theorem framed_summary (view : PullRequestView) :
    Framed blockDelimiters (renderPullRequestSummary view ++ lit "\n\n") (rawFields view) := by
  have hhead : Sections [lit "### Autonomous loop — " ++ decisionLabel view.outcome.decision, [],
      table (statusRows view), [], lit "**Why**", []] (view.issue.map issueText).toList := by
    have htitle : blockDelimiters.Inert
        (lit "### Autonomous loop — " ++ decisionLabel view.outcome.decision) := by
      cases view.outcome.decision <;> exact inert_of_free (by decide) (by decide)
    exact ⟨[[], [], (view.issue.map issueText).toList, [], [], []],
      .cons (.inert htitle) (.cons (.inert (by decide)) (.cons (framed_table view)
        (.cons (.inert (by decide))
          (.cons (.inert (by decide)) (.cons (.inert (by decide)) .nil))))),
      by simp⟩
  have htail : Sections [[], lit "**Review summary**", [],
      lit "> " ++ sanitiseForMarkdown view.review.summary] [] := by
    have hquote := inert_append_cons (s := lit ">") (c := 32) (by decide) (by decide)
      (inert_sanitiseForMarkdown view.review.summary)
    refine sections_inert ?_
    simp only [List.forall_mem_cons]
    exact ⟨by decide, by decide, by decide, by simpa [lit] using hquote, by simp⟩
  have hreasons : Sections (view.outcome.reasons.map reasonLine) [] := by
    refine sections_inert fun t ht => ?_
    obtain ⟨reason, -, rfl⟩ := List.mem_map.mp ht
    exact inert_reasonLine reason
  have hrisk : Sections (view.risk.reasons.map riskReasonLine) [] := by
    refine sections_inert fun t ht => ?_
    obtain ⟨reason, -, rfl⟩ := List.mem_map.mp ht
    exact inert_riskReasonLine reason
  have hchecks : Sections (view.checks.map checkLine) (view.checks.map CheckState.name) := by
    rw [List.map_eq_flatMap (f := CheckState.name)]
    exact sections_lines fun check _ => framed_checkLine check
  have hriskTitle : Sections [[], lit "**Risk classification**", []] [] :=
    sections_inert (by decide)
  have hcheckTitle : Sections [[], lit "**Required checks**", []] [] := sections_inert (by decide)
  obtain ⟨parts, hall, hfields⟩ := (((((((hhead.append hreasons).append hriskTitle).append
    hrisk).append hcheckTitle).append hchecks).append
      (sections_findings view.review.findings)).append
      (sections_recurrence view.recurrence)).append htail
  have hsummary := framed_lines hall
  rw [hfields] at hsummary
  have h := hsummary.append (c := 10) (by decide) (.inert (by decide : blockDelimiters.Inert [10]))
  simp only [List.append_nil] at h
  exact h

/-! ### The theorem -/

/-- Whatever state the loop writes behind this summary, it reads it back. -/
def StateSurvives (view : PullRequestView) : Prop :=
  ∀ state : LoopState, state.Fits → ∀ issue,
    parseLoopState (some (stickyComment { view with state := state })) issue = state

theorem stickyComment_append (view : PullRequestView) : stickyComment view =
    (renderPullRequestSummary view ++ lit "\n\n") ++
      (serialiseLoopState view.state ++ lit "\n") := by
  simp only [stickyComment, List.append_assoc]

theorem occursThen_summary_iff (view : PullRequestView) :
    OccursThen IsMarker IsFence (renderPullRequestSummary view ++ lit "\n\n") ↔
      OccursThenIn IsMarker IsFence (rawFields view) :=
  (framed_summary view).occursThen_iff bounds_isMarker bounds_isFence

/-- A forged block hides every state, so two states that print alike are read alike. -/
theorem not_stateSurvives_of_forged {view : PullRequestView}
    (h : OccursThenIn IsMarker IsFence (rawFields view)) : ¬ StateSurvives view := by
  intro hsurvives
  have hforged : OccursThen IsMarker IsFence
      (renderPullRequestSummary { view with state := initialState none } ++ lit "\n\n") :=
    (occursThen_summary_iff { view with state := initialState none }).mpr h
  obtain ⟨r, hr⟩ := parseLoopState_forged hforged none
  have hfresh := hsurvives _ fits_initialState none
  have hreviewed := hsurvives _ fits_reviewedState none
  rw [stickyComment_append] at hfresh hreviewed
  have hsame : renderPullRequestSummary { view with state := reviewedState } =
      renderPullRequestSummary { view with state := initialState none } := rfl
  rw [hsame, hr] at hreviewed
  rw [hr, hreviewed] at hfresh
  exact absurd hfresh (by decide)

/-- **When the state survives.**  The state read out of the comment is the state that was written
exactly when the raw fields hold no marker with a fence behind it. -/
theorem state_survives_iff (view : PullRequestView) :
    StateSurvives view ↔ ¬ OccursThenIn IsMarker IsFence (rawFields view) := by
  refine ⟨fun h hforged => not_stateSurvives_of_forged hforged h, fun h state hs issue => ?_⟩
  rw [stickyComment_append]
  refine parseLoopState_serialise hs (fun hforged => h ?_) (lit "\n") issue
  exact (occursThen_summary_iff { view with state := state }).mp hforged

end

/-- A path that holds a marker and a fenced block. -/
def forgedFile : Text := lit "<!--newsdeck-loop-state-->\n```json\n0\n```"

/-- A summary with one finding, about that path. -/
def forgedView : PullRequestView where
  issue := none
  risk := ⟨.low, [], ⟨false, false, []⟩⟩
  review := ⟨.requestChanges, [⟨.high, some forgedFile, none, lit "A defect.", lit "Fix it.",
    lit "agent", lit "review"⟩], lit "One defect."⟩
  outcome := ⟨.changesRequested, [], .success, .failure, true,
    ⟨.requestChanges, [], lit "One defect."⟩⟩
  state := initialState none
  maxReviewAttempts := 3
  checks := []
  recurrence := []

/-- The path fits the bound of the review schema and hides every state. -/
theorem forged_file_hides_state : forgedFile.length ≤ 512 ∧
    ¬ @StateSurvives asciiHost forgedView := by
  refine ⟨by decide, @not_stateSurvives_of_forged asciiHost forgedView (.inl ?_)⟩
  refine ⟨lit "<!--newsdeck-loop-state-->\n", lit "```json\n0\n```", by decide, ?_, ?_⟩
  · exact ⟨lit "<!--newsdeck-loop-state-->", ⟨[], [], by simp, by simp, by decide⟩, by decide⟩
  · exact ⟨lit "```json\n", ⟨[], by simp, by decide⟩, by decide⟩

end Newsdeck.Loop

import Newsdeck.Library.Splitting
import Newsdeck.Loop.Recurrence

/-!
# Which findings are told to have come back

A finding is compared with what earlier heads retained by the words its description has in common
with theirs.  Some descriptions have no word that counts, and these match nothing, themselves
included.

* `mem_significantTerms_iff` — the words that count stand in the text as whole runs of letters and
  digits;
* `findingsMatch_comm` — the comparison does not depend on the order of the two;
* `mem_headsOf_iff` — which heads are listed for a finding;
* `recurrence_reported_iff` — when every retained finding is reported with its head.
-/

namespace Newsdeck.Loop

open Ecma

/-! ### Words -/

/-- `[a-z0-9]`. -/
def isTermUnit (c : ℕ) : Bool := isLower c || isDigit c

/-- The word stands in the text as a whole run of letters and digits. -/
def StandsIn (word text : Text) : Prop :=
  (∀ c ∈ word, isTermUnit c = true) ∧ ∃ a b, text = a ++ (word ++ b) ∧
    (∀ c ∈ a.getLast?, isTermUnit c = false) ∧ ∀ c ∈ b.head?, isTermUnit c = false

/-- What stands for a unit when words are told apart. -/
def unpunctuated (c : ℕ) : ℕ := if isPunctuation c then 32 else c

theorem isSpace_unpunctuated (c : ℕ) : isSpace (unpunctuated c) = !isTermUnit c := by
  have hterm : isTermUnit c = true → isSpace c = false := by
    simp only [isTermUnit, isLower, isDigit, isSpace, Bool.or_eq_true, Bool.and_eq_true,
      decide_eq_true_eq, Bool.or_eq_false_iff, Bool.and_eq_false_iff, decide_eq_false_iff_not]
    omega
  unfold unpunctuated isPunctuation
  cases h : isTermUnit c with
  | true =>
    unfold isTermUnit at h
    simp [h, hterm (by unfold isTermUnit; exact h)]
  | false =>
    unfold isTermUnit at h
    cases hspace : isSpace c <;> simp [h, hspace]
    decide

theorem mem_splitOnP_unpunctuated_iff {word text : Text} :
    word ∈ (text.map unpunctuated).splitOnP isSpace ↔ StandsIn word text := by
  have hself : ∀ c, isSpace (unpunctuated c) = false → unpunctuated c = c := by
    intro c h
    unfold unpunctuated at h ⊢
    split
    · rename_i hp
      rw [if_pos hp] at h
      exact absurd h (by decide)
    · rfl
  rw [Splitting.mem_splitOnP_iff]
  constructor
  · rintro ⟨hword, a, b, heq, ha, hb⟩
    obtain ⟨a, rest, rfl, rfl, hrest⟩ := List.map_eq_append_iff.mp heq
    obtain ⟨word, b, rfl, rfl, rfl⟩ := List.map_eq_append_iff.mp hrest
    have hall : ∀ c ∈ word, isSpace (unpunctuated c) = false :=
      fun c hc => hword _ (List.mem_map_of_mem hc)
    have hmap : word.map unpunctuated = word := by
      rw [List.map_congr_left fun c hc => hself c (hall c hc), List.map_id'']
      exact fun c => rfl
    have hterm : ∀ c, isSpace (unpunctuated c) = true → isTermUnit c = false := by
      intro c hc
      rw [isSpace_unpunctuated] at hc
      simpa using hc
    rw [hmap]
    refine ⟨fun c hc => ?_, a, b, rfl, fun c hc => hterm c (ha _ ?_), fun c hc => hterm c (hb _ ?_)⟩
    · have hspace := hall c hc
      rw [isSpace_unpunctuated] at hspace
      simpa using hspace
    · rw [List.getLast?_map, Option.mem_def.mp hc]
      rfl
    · rw [List.head?_map, Option.mem_def.mp hc]
      rfl
  · rintro ⟨hword, a, b, rfl, ha, hb⟩
    have hspace : ∀ c, isTermUnit c = false → isSpace (unpunctuated c) = true := by
      intro c hc
      rw [isSpace_unpunctuated, hc]
      rfl
    have hall : ∀ c ∈ word, isSpace (unpunctuated c) = false := by
      intro c hc
      rw [isSpace_unpunctuated, hword c hc]
      rfl
    have hmap : word.map unpunctuated = word := by
      rw [List.map_congr_left fun c hc => hself c (hall c hc), List.map_id'']
      exact fun c => rfl
    refine ⟨fun c hc => ?_, a.map unpunctuated, b.map unpunctuated, ?_, ?_, ?_⟩
    · rw [← hself c (hall c hc)]
      exact hall c hc
    · rw [List.map_append, List.map_append, hmap]
    · rw [List.getLast?_map]
      intro c hc
      obtain ⟨d, hd, rfl⟩ := Option.map_eq_some_iff.mp hc
      exact hspace d (ha d hd)
    · rw [List.head?_map]
      intro c hc
      obtain ⟨d, hd, rfl⟩ := Option.map_eq_some_iff.mp hc
      exact hspace d (hb d hd)

section

variable [Host]

/-- **The words that count** are whole runs of four letters and digits or more, and no stop
words. -/
theorem mem_significantTerms_iff {text word : Text} : word ∈ significantTerms text ↔
    StandsIn word (Host.toLowerCase text) ∧ 4 ≤ word.length ∧ word ∉ stopwords := by
  rw [← mem_splitOnP_unpunctuated_iff, significantTerms, List.mem_eraseDups, List.mem_filter]
  exact and_congr_right fun _ => decide_eq_true_iff

/-- Some word of the text counts. -/
def Tells (text : Text) : Prop :=
  ∃ word, StandsIn word (Host.toLowerCase text) ∧ 4 ≤ word.length ∧ word ∉ stopwords

theorem tells_iff {text : Text} : Tells text ↔ significantTerms text ≠ [] := by
  rw [ne_eq, List.eq_nil_iff_forall_not_mem, not_forall]
  simp only [not_not, mem_significantTerms_iff, Tells]

omit [Host] in
theorem nodup_eraseDups (terms : List Text) : terms.eraseDups.Nodup := by
  induction hlength : terms.length using Nat.strong_induction_on generalizing terms with
  | _ n ih =>
    cases terms with
    | nil => simp
    | cons term terms =>
      rw [List.eraseDups_cons, List.nodup_cons]
      refine ⟨by simp [List.mem_eraseDups], ih _ ?_ _ rfl⟩
      rw [← hlength, List.length_cons]
      exact Nat.lt_succ_of_le (List.length_filter_le _ _)

theorem nodup_significantTerms (text : Text) : (significantTerms text).Nodup := nodup_eraseDups _

/-! ### The comparison -/

omit [Host] in
theorem length_filter_mem_comm {a b : List Text} (ha : a.Nodup) (hb : b.Nodup) :
    (a.filter fun term => term ∈ b).length = (b.filter fun term => term ∈ a).length := by
  apply List.Perm.length_eq
  rw [List.perm_ext_iff_of_nodup (ha.filter _) (hb.filter _)]
  intro term
  simp only [List.mem_filter, decide_eq_true_eq]
  exact and_comm

omit [Host] in
theorem overlapCoefficient_comm {a b : List Text} (ha : a.Nodup) (hb : b.Nodup) :
    overlapCoefficient a b = overlapCoefficient b a := by
  unfold overlapCoefficient
  rw [length_filter_mem_comm ha hb, Nat.min_comm]
  simp only [or_comm]

omit [Host] in
theorem overlapCoefficient_self {a : List Text} (h : a ≠ []) : overlapCoefficient a a = 1 := by
  have hlength : a.length ≠ 0 := fun hzero => h (List.length_eq_zero_iff.mp hzero)
  have hall : a.filter (fun term => term ∈ a) = a :=
    List.filter_eq_self.mpr fun term hterm => by simpa
  unfold overlapCoefficient
  rw [if_neg (by simpa using h), hall, Nat.min_self]
  exact div_self (by exact_mod_cast hlength)

/-- **The comparison does not depend on the order of the two.** -/
theorem findingsMatch_comm (a b : FindingRecord) : findingsMatch a b = findingsMatch b a := by
  have hfiles : (a.file ≠ none ∧ b.file ≠ none ∧ a.file ≠ b.file) ↔
      (b.file ≠ none ∧ a.file ≠ none ∧ b.file ≠ a.file) := by
    rw [ne_comm (a := a.file) (b := b.file)]
    tauto
  unfold findingsMatch
  rw [overlapCoefficient_comm (nodup_significantTerms _) (nodup_significantTerms _)]
  simp only [hfiles]

theorem tells_of_findingsMatch {a b : FindingRecord} (h : findingsMatch a b = true) :
    Tells a.description := by
  rw [tells_iff]
  intro hnone
  unfold findingsMatch at h
  split at h
  · cases h
  · rw [hnone, overlapCoefficient, if_pos (.inl rfl)] at h
    exact absurd (of_decide_eq_true h) (by norm_num)

/-- What has a word that counts matches every record of the same description, file and all. -/
theorem findingsMatch_of_same {a b : FindingRecord} (hfile : a.file = b.file)
    (hdescription : a.description = b.description) (h : Tells a.description) :
    findingsMatch a b = true := by
  unfold findingsMatch
  rw [if_neg fun hne => hne.2.2 hfile, ← hdescription, overlapCoefficient_self (tells_iff.mp h)]
  norm_num

/-! ### Heads -/

/-- The heads under which matches are found, in the order of their first match. -/
def headsOf (record : FindingRecord) (priorAttempts : List HistoryFindingsEntry) : List Text :=
  (occurrencesOf record priorAttempts).map RecurrenceOccurrence.headSha

/-- What a step stores under a head names that head. -/
theorem headSha_of_mem_occurrences {record : FindingRecord}
    {priorAttempts : List HistoryFindingsEntry} :
    ∀ entry ∈ priorAttempts.foldl (occurrenceStep record) [], entry.2.headSha = entry.1 := by
  have hset : ∀ (seen : OrderedMap Text RecurrenceOccurrence) (head : Text)
      (occurrence : RecurrenceOccurrence), occurrence.headSha = head →
      (∀ entry ∈ seen, entry.2.headSha = entry.1) →
        ∀ entry ∈ seen.set head occurrence, entry.2.headSha = entry.1 := by
    intro seen head occurrence hnamed hseen
    induction seen with
    | nil => simpa [OrderedMap.set] using hnamed
    | cons entry seen ih =>
      obtain ⟨hfirst, hrest⟩ := List.forall_mem_cons.mp hseen
      unfold OrderedMap.set
      split
      · rename_i hkey
        exact List.forall_mem_cons.mpr ⟨hnamed.trans hkey, hrest⟩
      · exact List.forall_mem_cons.mpr ⟨hfirst, ih hrest⟩
  induction priorAttempts using List.reverseRecOn with
  | nil => simp
  | append_singleton priorAttempts entry ih =>
    rw [List.foldl_append, List.foldl_cons, List.foldl_nil, occurrenceStep]
    split
    · exact ih
    · split
      · exact hset _ _ _ rfl ih
      · exact ih

theorem headsOf_eq (record : FindingRecord) (priorAttempts : List HistoryFindingsEntry) :
    headsOf record priorAttempts =
      OrderedMap.keys (priorAttempts.foldl (occurrenceStep record) []) := by
  unfold headsOf occurrencesOf OrderedMap.values OrderedMap.keys
  rw [List.map_map]
  exact List.map_congr_left headSha_of_mem_occurrences

/-- **The heads listed for a finding** are those of the attempts that hold a match. -/
theorem mem_headsOf_iff {record : FindingRecord} {priorAttempts : List HistoryFindingsEntry}
    {head : Text} : head ∈ headsOf record priorAttempts ↔
      ∃ entry ∈ priorAttempts, entry.headSha = head ∧ ∃ prior ∈ entry.findings,
        findingsMatch record prior = true := by
  rw [headsOf_eq]
  induction priorAttempts using List.reverseRecOn with
  | nil => simp [OrderedMap.keys]
  | append_singleton priorAttempts entry ih =>
    have hstep : head ∈ OrderedMap.keys (occurrenceStep record
        (priorAttempts.foldl (occurrenceStep record) []) entry) ↔
        head ∈ OrderedMap.keys (priorAttempts.foldl (occurrenceStep record) []) ∨
          entry.headSha = head ∧ ∃ prior ∈ entry.findings, findingsMatch record prior = true := by
      rw [← List.any_eq_true, occurrenceStep]
      split
      · -- the head is listed already
        rename_i hseen
        refine ⟨.inl, fun h => h.elim id ?_⟩
        rintro ⟨rfl, -⟩
        exact OrderedMap.mem_keys_iff.mpr (Option.isSome_iff_exists.mp hseen)
      · split
        · rename_i hmatch
          rw [OrderedMap.keys_set]
          split
          · rename_i hmem
            refine ⟨.inl, fun h => h.elim id ?_⟩
            rintro ⟨rfl, -⟩
            exact hmem
          · rw [List.mem_append, List.mem_singleton]
            exact or_congr_right ⟨fun h => ⟨h.symm, hmatch⟩, fun h => h.1.symm⟩
        · rename_i hmatch
          exact ⟨.inl, fun h => h.resolve_right fun hnew => hmatch hnew.2⟩
    rw [List.foldl_append, List.foldl_cons, List.foldl_nil, hstep, ih]
    simp [or_and_right, exists_or]

/-- A record of a finding with the same file and the same description was retained. -/
def Retained (entry : HistoryFindingsEntry) (finding : Finding) : Prop :=
  ∃ earlier : Finding, earlier.file = finding.file ∧ earlier.description = finding.description ∧
    toFindingRecord earlier ∈ entry.findings

/-- The finding is reported, with the head among its occurrences. -/
def ReportedAt (recurring : List RecurringFinding) (finding : Finding) (head : Text) : Prop :=
  ∃ report ∈ recurring, report.finding = finding ∧
    ∃ occurrence ∈ report.occurrences, occurrence.headSha = head

theorem mem_detectRecurrence_iff {currentFindings : List Finding}
    {history : List HistoryFindingsEntry} {currentHeadSha : Text} {report : RecurringFinding} :
    report ∈ detectRecurrence currentFindings history currentHeadSha ↔
      report.finding ∈ currentFindings ∧ report.occurrences ≠ [] ∧
        report.occurrences = occurrencesOf (toFindingRecord report.finding)
          (history.filter fun entry => entry.headSha ≠ currentHeadSha ∧
            entry.findings.length > 0) := by
  unfold detectRecurrence
  simp only [List.mem_filterMap, Option.ite_none_right_eq_some, Option.some.injEq]
  constructor
  · rintro ⟨finding, hmem, hpos, rfl⟩
    exact ⟨hmem, List.length_pos_iff.mp hpos, rfl⟩
  · rintro ⟨hmem, hne, heq⟩
    exact ⟨report.finding, hmem, List.length_pos_iff.mpr (heq ▸ hne), by rw [← heq]⟩

theorem reportedAt_iff {currentFindings : List Finding} {history : List HistoryFindingsEntry}
    {currentHeadSha head : Text} {finding : Finding} :
    ReportedAt (detectRecurrence currentFindings history currentHeadSha) finding head ↔
      finding ∈ currentFindings ∧ head ≠ currentHeadSha ∧ ∃ entry ∈ history, entry.headSha = head ∧
        ∃ prior ∈ entry.findings, findingsMatch (toFindingRecord finding) prior = true := by
  have hheads : ∀ {report : RecurringFinding}, report.occurrences = occurrencesOf
      (toFindingRecord report.finding)
        (history.filter fun entry => entry.headSha ≠ currentHeadSha ∧ entry.findings.length > 0) →
      ((∃ occurrence ∈ report.occurrences, occurrence.headSha = head) ↔ head ≠ currentHeadSha ∧
        ∃ entry ∈ history, entry.headSha = head ∧ ∃ prior ∈ entry.findings,
          findingsMatch (toFindingRecord report.finding) prior = true) := by
    intro report heq
    rw [heq, ← List.mem_map]
    show head ∈ headsOf _ _ ↔ _
    rw [mem_headsOf_iff]
    simp only [List.mem_filter, decide_eq_true_eq]
    constructor
    · rintro ⟨entry, ⟨hentry, hother, -⟩, rfl, hmatch⟩
      exact ⟨hother, entry, hentry, rfl, hmatch⟩
    · rintro ⟨hother, entry, hentry, rfl, prior, hprior, hmatch⟩
      exact ⟨entry, ⟨hentry, hother, List.length_pos_of_mem hprior⟩, rfl, prior, hprior, hmatch⟩
  constructor
  · rintro ⟨report, hreport, rfl, hhead⟩
    obtain ⟨hmem, -, heq⟩ := mem_detectRecurrence_iff.mp hreport
    exact ⟨hmem, (hheads heq).mp hhead⟩
  · rintro ⟨hmem, hhead⟩
    have hlisted := (@hheads ⟨finding, occurrencesOf (toFindingRecord finding) _⟩ rfl).mpr hhead
    refine ⟨_, mem_detectRecurrence_iff.mpr ⟨hmem, ?_, rfl⟩, rfl, hlisted⟩
    obtain ⟨occurrence, hoccurrence, -⟩ := hlisted
    exact List.ne_nil_of_mem hoccurrence

/-- **When retained findings are told to have come back.**  Every current finding of which a record
was retained under another head is reported with that head, the current head is never listed and the
comparison is symmetric, exactly when the part of each such finding's description that is kept has a
word that counts. -/
theorem recurrence_reported_iff (currentFindings : List Finding)
    (history : List HistoryFindingsEntry) (currentHeadSha : Text) :
    ((∀ finding ∈ currentFindings, ∀ entry ∈ history, entry.headSha ≠ currentHeadSha →
        Retained entry finding →
          ReportedAt (detectRecurrence currentFindings history currentHeadSha)
          finding entry.headSha) ∧
      (∀ finding, ¬ReportedAt (detectRecurrence currentFindings history currentHeadSha) finding
        currentHeadSha) ∧
      ∀ a b, findingsMatch a b = findingsMatch b a) ↔
    ∀ finding ∈ currentFindings, ∀ entry ∈ history, entry.headSha ≠ currentHeadSha →
      Retained entry finding → Tells (finding.description.take 320) := by
  constructor
  · rintro ⟨hreported, -, -⟩ finding hfinding entry hentry hother hretained
    obtain ⟨-, -, -, -, -, prior, -, hmatch⟩ :=
      reportedAt_iff.mp (hreported finding hfinding entry hentry hother hretained)
    exact tells_of_findingsMatch hmatch
  · intro htells
    refine ⟨fun finding hfinding entry hentry hother hretained => ?_,
      fun finding h => (reportedAt_iff.mp h).2.1 rfl, findingsMatch_comm⟩
    have htold := htells finding hfinding entry hentry hother hretained
    obtain ⟨earlier, hfile, hdescription, hmem⟩ := hretained
    refine reportedAt_iff.mpr ⟨hfinding, hother, entry, hentry, rfl, _, hmem, ?_⟩
    exact findingsMatch_of_same hfile.symm (congrArg (List.take 320) hdescription.symm) htold

end

/-! ### A description in short words -/

/-- A finding that no word of four letters describes. -/
def shortWords : Finding where
  severity := .high
  file := some (lit "apps/api/src/db.ts")
  line := none
  description := lit "SQL bug: no tx"
  suggestedAction := lit "Use a tx."
  source := lit "agent"
  category := lit "correctness"

/-- The same finding again at another head: it is not reported. -/
theorem short_words_unreported :
    Retained ⟨lit "13a70f8", 0, [toFindingRecord shortWords]⟩ shortWords ∧
    @detectRecurrence asciiHost [shortWords] [⟨lit "13a70f8", 0, [toFindingRecord shortWords]⟩]
      (lit "241e8fa") = [] :=
  ⟨⟨shortWords, rfl, rfl, List.mem_singleton_self _⟩, by decide +kernel⟩

end Newsdeck.Loop

import Newsdeck.Ecma.OrderedMap
import Newsdeck.Loop.Review
import Mathlib.Data.Rat.Defs

/-!
# Findings that come back

The compact record of a finding that survives in the sticky comment, and the comparison that tells a
fix round which findings an earlier head already had.  Two findings match when their files do not
contradict each other and at least half of the smaller set of significant words is shared.
-/

namespace Newsdeck.Loop

open Ecma

/-- What is kept of a finding between rounds. -/
structure FindingRecord where
  severity : Severity
  file : Option Text
  description : Text
  category : Text
  deriving DecidableEq, Repr

def findingRecordSchema : Schema FindingRecord := Schema.object fun field => do
  let severity ← field "severity" severitySchema
  let file ← field "file" (Schema.nullable (textUpTo 512))
  let description ← field "description" (textUpTo 320)
  let category ← field "category" (textUpTo 64)
  some ⟨severity, file, description, category⟩

/-- `MAX_RETAINED_FINDINGS`. -/
def maxRetainedFindings : ℕ := 10

def toFindingRecord (finding : Finding) : FindingRecord where
  severity := finding.severity
  file := finding.file
  description := finding.description.take 320
  category := finding.category

/-! ### Comparing two findings -/

/-- `STOPWORDS`. -/
def stopwords : List Text :=
  [lit "this", lit "that", lit "these", lit "those", lit "with", lit "from", lit "into",
    lit "across", lit "only", lit "never", lit "every", lit "each", lit "both", lit "their",
    lit "they", lit "them", lit "there", lit "here", lit "over", lit "under", lit "been",
    lit "were", lit "have", lit "does", lit "should", lit "would", lit "could", lit "also",
    lit "when", lit "which", lit "while", lit "still", lit "more", lit "most", lit "same",
    lit "other", lit "than", lit "then", lit "about"]

/-- `[^a-z0-9\s]`. -/
def isPunctuation (c : ℕ) : Bool := !(isLower c || isDigit c || isSpace c)

variable [Host]

/-- The words that carry meaning, as a set in order of first appearance.  Splitting at every single
blank instead of at runs of them adds empty words only, and these are too short to stay. -/
def significantTerms (text : Text) : List Text :=
  let spaced := (Host.toLowerCase text).map fun c => if isPunctuation c then 32 else c
  ((spaced.splitOnP isSpace).filter fun word => 4 ≤ word.length ∧ word ∉ stopwords).eraseDups

/-- Fraction of the smaller term set also present in the larger one. -/
def overlapCoefficient (a b : List Text) : ℚ :=
  if a.length = 0 ∨ b.length = 0 then 0
  else ((a.filter fun term => term ∈ b).length : ℚ) / (min a.length b.length : ℕ)

/-- Whether two findings describe the same underlying defect. -/
def findingsMatch (a b : FindingRecord) : Bool :=
  if a.file ≠ none ∧ b.file ≠ none ∧ a.file ≠ b.file then false
  else 1 / 2 ≤ overlapCoefficient (significantTerms a.description) (significantTerms b.description)

/-! ### Recurrence -/

structure RecurrenceOccurrence where
  attempt : ℕ
  headSha : Text
  deriving DecidableEq, Repr

structure RecurringFinding where
  finding : Finding
  occurrences : List RecurrenceOccurrence
  deriving DecidableEq, Repr

structure HistoryFindingsEntry where
  headSha : Text
  attempt : ℕ
  findings : List FindingRecord

/-- One prior attempt: the first entry of a head commit that holds a match is its occurrence. -/
def occurrenceStep (record : FindingRecord) (seen : OrderedMap Text RecurrenceOccurrence)
    (entry : HistoryFindingsEntry) : OrderedMap Text RecurrenceOccurrence :=
  if (seen.get? entry.headSha).isSome then seen
  else if entry.findings.any (findingsMatch record) then
    seen.set entry.headSha ⟨entry.attempt, entry.headSha⟩
  else seen

/-- The earlier head commits at which a finding was raised before. -/
def occurrencesOf (record : FindingRecord) (priorAttempts : List HistoryFindingsEntry) :
    List RecurrenceOccurrence :=
  (priorAttempts.foldl (occurrenceStep record) []).values

/-- Match this round's findings against every earlier attempt's retained findings. -/
def detectRecurrence (currentFindings : List Finding) (history : List HistoryFindingsEntry)
    (currentHeadSha : Text) : List RecurringFinding :=
  let priorAttempts := history.filter fun entry =>
    entry.headSha ≠ currentHeadSha ∧ entry.findings.length > 0
  currentFindings.filterMap fun finding =>
    let occurrences := occurrencesOf (toFindingRecord finding) priorAttempts
    if occurrences.length > 0 then some ⟨finding, occurrences⟩ else none

end Newsdeck.Loop

import Newsdeck.Database.Errors
import Newsdeck.Library.Effects
import Newsdeck.Worker.FeedFetcher

/-!
# The table of sources

The API writes the rows of the table, and the collector keeps its bookkeeping in them.  Each statement
is atomic; the index `sources_feed_url_unique` keeps the feed URLs apart.  The timestamps of a row
decide nothing and are left out.

* `sourcesStep` — what a statement answers, and what it does to the table;
* `Writes` — a write that would give two rows one feed URL is refused as a conflict;
* `sourcesStep_cases` — what a step can do to the rows;
* `answerSources` — a database in which no statement fails but for the index.
-/

namespace Newsdeck.Sources

open Ecma Effects Database Worker

structure Source where
  id : Text
  name : Text
  feedUrl : Text
  siteUrl : Option Text
  isActive : Bool
  etag : Option Text
  lastModified : Option Text
  lastError : Option Text
  deriving DecidableEq, Repr

structure NewSource where
  name : Text
  feedUrl : Text
  siteUrl : Option Text
  deriving DecidableEq, Repr

/-- A field that is not given stays as it is. -/
structure UpdateSourceInput where
  name : Option Text
  feedUrl : Option Text
  siteUrl : Option (Option Text)
  deriving DecidableEq, Repr

structure SourceFetchTarget where
  id : Text
  feedUrl : Text
  etag : Option Text
  lastModified : Option Text
  deriving DecidableEq, Repr

/-- A validator that is not given stays as it is. -/
structure RecordFetchOutcomeInput where
  etag : Option (Option Text)
  lastModified : Option (Option Text)
  lastError : Option Text
  deriving DecidableEq, Repr

/-- The statements of the two repositories, and the requests of the collector. -/
inductive SourcesOp where
  | findByFeedUrl (feedUrl : Text)
  | insert (input : NewSource)
  | update (id : Text) (patch : UpdateSourceInput)
  | deactivate (id : Text)
  | findFetchTarget (id : Text)
  | recordFetchOutcome (id : Text) (outcome : RecordFetchOutcomeInput)
  | fetchFeed (url : Text) (etag lastModified : Option Text)
  deriving DecidableEq, Repr

def SourcesOp.Answer : SourcesOp → Type
  | findByFeedUrl _ => Except DbError (Option Source)
  | insert _ => Except DbError Source
  | update _ _ => Except DbError (Option Source)
  | deactivate _ => Except DbError (Option Source)
  | findFetchTarget _ => Except DbError (Option SourceFetchTarget)
  | recordFetchOutcome _ _ => Except DbError Unit
  | fetchFeed _ _ _ => Except FetchFailure FetchFeedResult

abbrev SourcesEvent := Event SourcesOp SourcesOp.Answer

/-! ### Rows -/

/-- The row that is inserted, with the defaults of the table. -/
def NewSource.toRow (input : NewSource) (id : Text) : Source where
  id := id
  name := input.name
  feedUrl := input.feedUrl
  siteUrl := input.siteUrl
  isActive := true
  etag := none
  lastModified := none
  lastError := none

namespace Source

def patched (patch : UpdateSourceInput) (row : Source) : Source :=
  { row with
    name := patch.name.getD row.name
    feedUrl := patch.feedUrl.getD row.feedUrl
    siteUrl := patch.siteUrl.getD row.siteUrl }

def deactivated (row : Source) : Source := { row with isActive := false }

def recorded (outcome : RecordFetchOutcomeInput) (row : Source) : Source :=
  { row with
    etag := outcome.etag.getD row.etag
    lastModified := outcome.lastModified.getD row.lastModified
    lastError := outcome.lastError }

def target (row : Source) : SourceFetchTarget := ⟨row.id, row.feedUrl, row.etag, row.lastModified⟩

end Source

/-- The id that PostgreSQL reads in a text, if the text is a UUID. -/
class Uuid where
  read : Text → Option Text

def urls (s : List Source) : List Text := s.map Source.feedUrl

def sourcesIndex : Text := lit "sources_feed_url_unique"

/-- Change the row with the id. -/
def updateRows (key : Text) (f : Source → Source) (s : List Source) : List Source :=
  s.map fun row => if row.id = key then f row else row

/-! ### Statements -/

/-- The answer to a statement that would leave the table as `t` and return `result`.  One that fails
for another reason than the index did nothing, or its answer was lost. -/
def Writes {α : Type} (s t : List Source) (result : α) (answer : Except DbError α) (s' : List Source) :
    Prop :=
  match answer with
  | .ok returned => (urls t).Nodup ∧ returned = result ∧ s' = t
  | .error error =>
      if (urls t).Nodup then isConflict sourcesIndex error = false ∧ (s' = s ∨ s' = t)
      else isConflict sourcesIndex error = true ∧ s' = s

/-- An update of the row with the id; a text that is no UUID is an error. -/
def Updates [Uuid] {α : Type} (id : Text) (f : Source → Source) (result : Option Source → α)
    (s : List Source) (answer : Except DbError α) (s' : List Source) : Prop :=
  match Uuid.read id with
  | none => (∃ error, answer = .error error ∧ isConflict sourcesIndex error = false) ∧ s' = s
  | some key =>
      Writes s (updateRows key f s) (result ((updateRows key f s).find? fun row => row.id = key)) answer
        s'

def sourcesStep [Uuid] (s : List Source) (event : SourcesEvent) (s' : List Source) : Prop :=
  match event with
  | ⟨.findByFeedUrl feedUrl, answer⟩ =>
      (∀ found, answer = .ok found → found = s.find? fun row => row.feedUrl = feedUrl) ∧ s' = s
  | ⟨.insert input, answer⟩ =>
      ∃ id, id ∉ s.map Source.id ∧ Writes s (s ++ [input.toRow id]) (input.toRow id) answer s'
  | ⟨.update id patch, answer⟩ => Updates id (Source.patched patch) (fun row => row) s answer s'
  | ⟨.deactivate id, answer⟩ => Updates id Source.deactivated (fun row => row) s answer s'
  | ⟨.findFetchTarget id, answer⟩ =>
      (∀ found, answer = .ok found → ∃ key, Uuid.read id = some key ∧
        found = (s.find? fun row => row.id = key).map Source.target) ∧ s' = s
  | ⟨.recordFetchOutcome id outcome, answer⟩ =>
      Updates id (Source.recorded outcome) (fun _ => ()) s answer s'
  | ⟨.fetchFeed _ _ _, _⟩ => s' = s

/-- The row a statement addresses, and what it does to it. -/
def SourcesOp.change : SourcesOp → Option (Text × (Source → Source))
  | update id patch => some (id, Source.patched patch)
  | deactivate id => some (id, Source.deactivated)
  | recordFetchOutcome id outcome => some (id, Source.recorded outcome)
  | _ => none

section Steps

variable {s s' t : List Source}

theorem Writes.cases {α : Type} {result : α} {answer : Except DbError α}
    (h : Writes s t result answer s') : s' = s ∨ (s' = t ∧ (urls t).Nodup) := by
  cases answer with
  | ok returned => exact .inr ⟨h.2.2, h.1⟩
  | error error =>
    by_cases hnodup : (urls t).Nodup
    · simp only [Writes, if_pos hnodup] at h
      exact h.2.imp_right fun heq => ⟨heq, hnodup⟩
    · simp only [Writes, if_neg hnodup] at h
      exact .inl h.2

variable [Uuid] {event : SourcesEvent}

theorem Updates.cases {α : Type} {id : Text} {f : Source → Source} {result : Option Source → α}
    {answer : Except DbError α} (h : Updates id f result s answer s') :
    s' = s ∨ ∃ key, Uuid.read id = some key ∧ s' = updateRows key f s ∧ (urls s').Nodup := by
  unfold Updates at h
  split at h
  · exact .inl h.2
  · rename_i key hkey
    rcases h.cases with heq | ⟨heq, hnodup⟩
    · exact .inl heq
    · exact .inr ⟨key, hkey, heq, heq ▸ hnodup⟩

/-- A statement changes nothing, adds a row, or changes the row it addresses; the index is kept. -/
theorem sourcesStep_cases (h : sourcesStep s event s') :
    s' = s ∨
    (∃ input id, event.op = .insert input ∧ s' = s ++ [input.toRow id] ∧ (urls s').Nodup) ∨
    (∃ id f key, event.op.change = some (id, f) ∧ Uuid.read id = some key ∧
      s' = updateRows key f s ∧ (urls s').Nodup) := by
  obtain ⟨op, answer⟩ := event
  cases op with
  | findByFeedUrl feedUrl => exact .inl h.2
  | insert input =>
    obtain ⟨id, -, hwrites⟩ := h
    exact hwrites.cases.imp_right fun ⟨heq, hnodup⟩ => .inl ⟨input, id, rfl, heq, heq ▸ hnodup⟩
  | update id patch =>
    have hupdates : Updates id (Source.patched patch) (fun row => row) s answer s' := h
    exact hupdates.cases.imp_right fun ⟨key, hkey, heq, hnodup⟩ => .inr ⟨id, _, key, rfl, hkey, heq, hnodup⟩
  | deactivate id =>
    have hupdates : Updates id Source.deactivated (fun row => row) s answer s' := h
    exact hupdates.cases.imp_right fun ⟨key, hkey, heq, hnodup⟩ => .inr ⟨id, _, key, rfl, hkey, heq, hnodup⟩
  | findFetchTarget id => exact .inl h.2
  | recordFetchOutcome id outcome =>
    have hupdates : Updates id (Source.recorded outcome) (fun _ => ()) s answer s' := h
    exact hupdates.cases.imp_right fun ⟨key, hkey, heq, hnodup⟩ => .inr ⟨id, _, key, rfl, hkey, heq, hnodup⟩
  | fetchFeed url etag lastModified => exact .inl h

theorem sourcesStep_urls (h : sourcesStep s event s') (hs : (urls s).Nodup) : (urls s').Nodup := by
  rcases sourcesStep_cases h with rfl | ⟨_, _, _, _, hnodup⟩ | ⟨_, _, _, _, _, _, hnodup⟩
  · exact hs
  · exact hnodup
  · exact hnodup

/-- What holds of every row, of a row that is inserted, and of a row that is changed. -/
theorem sourcesStep_rows {P : Source → Prop} (h : sourcesStep s event s') (hs : ∀ row ∈ s, P row)
    (hinsert : ∀ input id, event.op = .insert input → P (input.toRow id))
    (hchange : ∀ id f key, event.op.change = some (id, f) → Uuid.read id = some key →
      ∀ row ∈ s, row.id = key → P row → P (f row)) :
    ∀ row ∈ s', P row := by
  rcases sourcesStep_cases h with rfl | ⟨input, id, hop, rfl, -⟩ | ⟨id, f, key, hop, hkey, rfl, -⟩
  · exact hs
  · intro row hrow
    rcases List.mem_append.mp hrow with hrow | hrow
    · exact hs row hrow
    · rw [List.mem_singleton.mp hrow]
      exact hinsert input id hop
  · intro row hrow
    obtain ⟨old, hold, rfl⟩ := List.mem_map.mp hrow
    split
    · rename_i hid
      exact hchange id f key hop hkey old hold hid (hs old hold)
    · exact hs old hold

end Steps

/-! ### A database -/

/-- What a write answers that fails only for the index. -/
def commit {α : Type} (s t : List Source) (result : α) : Except DbError α × List Source :=
  if (urls t).Nodup then (.ok result, t) else (.error (uniqueViolation sourcesIndex), s)

/-- A database in which no statement fails but for the index, and the feeds. -/
def answerSources [Uuid] (feeds : Text → Except FetchFailure FetchFeedResult) (s : List Source) :
    (op : SourcesOp) → Option (op.Answer × List Source)
  | .findByFeedUrl feedUrl => some (.ok (s.find? fun row => row.feedUrl = feedUrl), s)
  | .insert input =>
      if decimal s.length ∈ s.map Source.id then none
      else
        let row := input.toRow (decimal s.length)
        some (commit s (s ++ [row]) row)
  | .update id patch =>
      (Uuid.read id).map fun key =>
        let t := updateRows key (Source.patched patch) s
        commit s t (t.find? fun row => row.id = key)
  | .deactivate id =>
      (Uuid.read id).map fun key =>
        let t := updateRows key Source.deactivated s
        commit s t (t.find? fun row => row.id = key)
  | .findFetchTarget id =>
      (Uuid.read id).map fun key =>
        (.ok ((s.find? fun row => row.id = key).map Source.target), s)
  | .recordFetchOutcome id outcome =>
      (Uuid.read id).map fun key => commit s (updateRows key (Source.recorded outcome) s) ()
  | .fetchFeed url _ _ => some (feeds url, s)

theorem writes_commit {α : Type} {s s' t : List Source} {result : α} {answer : Except DbError α}
    (h : commit s t result = (answer, s')) : Writes s t result answer s' := by
  unfold commit at h
  split at h
  · rename_i hnodup
    obtain ⟨rfl, rfl⟩ := Prod.mk.inj h
    exact ⟨hnodup, rfl, rfl⟩
  · rename_i hdouble
    obtain ⟨rfl, rfl⟩ := Prod.mk.inj h
    simp only [Writes, if_neg hdouble]
    exact ⟨isConflict_uniqueViolation _, trivial⟩

theorem updates_commit [Uuid] {α : Type} (id : Text) (f : Source → Source) (result : Option Source → α)
    {s s' : List Source} {answer : Except DbError α}
    (h : ((Uuid.read id).map fun key => commit s (updateRows key f s)
      (result ((updateRows key f s).find? fun row => row.id = key))) = some (answer, s')) :
    Updates id f result s answer s' := by
  obtain ⟨key, hkey, hcommit⟩ := Option.map_eq_some_iff.mp h
  simp only [Updates, hkey]
  exact writes_commit hcommit

theorem sourcesStep_answer [Uuid] {feeds : Text → Except FetchFailure FetchFeedResult}
    {s s' : List Source} {op : SourcesOp} {answer : op.Answer}
    (h : answerSources feeds s op = some (answer, s')) : sourcesStep s ⟨op, answer⟩ s' := by
  cases op with
  | findByFeedUrl feedUrl =>
    obtain ⟨rfl, rfl⟩ := Prod.mk.inj (Option.some.inj h)
    exact ⟨fun found hfound => (Except.ok.inj hfound).symm, rfl⟩
  | insert input =>
    by_cases htaken : decimal s.length ∈ s.map Source.id
    · simp [answerSources, htaken] at h
    · simp only [answerSources, if_neg htaken] at h
      exact ⟨_, htaken, writes_commit (Option.some.inj h)⟩
  | update id patch => exact updates_commit id (Source.patched patch) (fun row => row) h
  | deactivate id => exact updates_commit id Source.deactivated (fun row => row) h
  | findFetchTarget id =>
    obtain ⟨key, hkey, hfound⟩ := Option.map_eq_some_iff.mp h
    obtain ⟨rfl, rfl⟩ := Prod.mk.inj hfound
    exact ⟨fun found hok => ⟨key, hkey, (Except.ok.inj hok).symm⟩, rfl⟩
  | recordFetchOutcome id outcome =>
    exact updates_commit id (Source.recorded outcome) (fun _ => ()) h
  | fetchFeed url etag lastModified =>
    obtain ⟨rfl, rfl⟩ := Prod.mk.inj (Option.some.inj h)
    exact rfl

end Newsdeck.Sources

import Newsdeck.Library.Precedence
import Newsdeck.Sources.Table

/-!
# The job that fetches a source

The job reads its target, fetches the feed with the validators it has read, and records the outcome:
the validators of a successful response, or only the error.

* `process` — the job;
* `process_asks` — it sends the validators it has read, and records the ones it has received.
-/

namespace Newsdeck.Sources

open Ecma Effects Database Worker

/-- What a job throws. -/
inductive JobFailure where
  | feedFetch (error : FeedFetchError)
  | other (message : Text)
  | db (error : DbError)
  /-- The queue does not try again. -/
  | unrecoverable (message : Text)
  deriving DecidableEq, Repr

def JobFailure.message : JobFailure → Text
  | feedFetch error => error.message
  | other message => message
  | db error => error.message
  | unrecoverable message => message

/-- A `FeedFetchError` that is not to be retried. -/
def JobFailure.permanent : JobFailure → Bool
  | feedFetch error => !error.retryable
  | _ => false

abbrev FetchAction (α : Type) := Prog SourcesOp SourcesOp.Answer JobFailure α

def stored {α : Type} : Except DbError α → FetchAction α
  | .ok a => .ret a
  | .error error => .throw (.db error)

def responded : Except FetchFailure FetchFeedResult → FetchAction FetchFeedResult
  | .ok result => .ret result
  | .error (.feedFetch error) => .throw (.feedFetch error)
  | .error (.other message) => .throw (.other message)

def recordFetchOutcome (id : Text) (outcome : RecordFetchOutcomeInput) : FetchAction Unit :=
  .call (.recordFetchOutcome id outcome) stored

/-- The `try` of the job. -/
def fetchAndRecord (source : SourceFetchTarget) : FetchAction Unit := do
  match ← Prog.call (.fetchFeed source.feedUrl source.etag source.lastModified) responded with
  | .notModified => recordFetchOutcome source.id ⟨none, none, none⟩
  | .fetched _ _ etag lastModified => recordFetchOutcome source.id ⟨some etag, some lastModified, none⟩

/-- Its `catch`. -/
def recordFailure (source : SourceFetchTarget) (error : JobFailure) : FetchAction Unit := do
  recordFetchOutcome source.id ⟨none, none, some error.message⟩
  .throw (if error.permanent then .unrecoverable error.message else error)

def process (sourceId : Text) : FetchAction Unit := do
  match ← Prog.call (.findFetchTarget sourceId) stored with
  | none => .throw (.unrecoverable (lit "no source with id \"" ++ sourceId ++ lit "\" exists"))
  | some source =>
      match ← (fetchAndRecord source).attempt with
      | .ok () => .ret ()
      | .error error => recordFailure source error

/-! ### What the job sends and records -/

/-- A request carries the validators of the target that was read; validators that are recorded came
with a response. -/
def JobAsks (log : List SourcesEvent) : SourcesOp → Prop
  | .fetchFeed url etag lastModified =>
      ∃ id target, (⟨.findFetchTarget id, .ok (some target)⟩ : SourcesEvent) ∈ log ∧
        target.feedUrl = url ∧ target.etag = etag ∧ target.lastModified = lastModified
  | .recordFetchOutcome _ outcome =>
      (outcome.etag = none ∧ outcome.lastModified = none) ∨
      ∃ url sent sent' body contentType etag lastModified,
        (⟨.fetchFeed url sent sent', .ok (.fetched body contentType etag lastModified)⟩ : SourcesEvent) ∈
          log ∧
        outcome.etag = some etag ∧ outcome.lastModified = some lastModified
  | _ => True

theorem emitsAfter_stored {α : Type} {P : List SourcesEvent → SourcesOp → Prop}
    {log : List SourcesEvent} (answer : Except DbError α) : EmitsAfter P log (stored answer) := by
  cases answer <;> trivial

theorem fetchAndRecord_asks {log : List SourcesEvent} {source : SourceFetchTarget} {id : Text}
    (hread : (⟨.findFetchTarget id, .ok (some source)⟩ : SourcesEvent) ∈ log) :
    EmitsAfter JobAsks log (fetchAndRecord source) := by
  refine ⟨⟨id, source, hread, rfl, rfl, rfl⟩, fun answer => ?_⟩
  cases answer with
  | ok result =>
    cases result with
    | notModified => exact ⟨.inl ⟨rfl, rfl⟩, fun answer => emitsAfter_stored answer⟩
    | fetched body contentType etag lastModified =>
      refine ⟨.inr ⟨source.feedUrl, source.etag, source.lastModified, body, contentType, etag, lastModified,
        ?_, rfl, rfl⟩, fun answer => emitsAfter_stored answer⟩
      exact List.mem_append_right log (List.mem_singleton_self _)
  | error failure => cases failure <;> trivial

theorem process_asks (sourceId : Text) (log : List SourcesEvent) :
    EmitsAfter JobAsks log (process sourceId) := by
  refine ⟨trivial, fun answer => ?_⟩
  cases answer with
  | error error => trivial
  | ok found =>
    cases found with
    | none => trivial
    | some source =>
      have hread : (⟨.findFetchTarget sourceId, .ok (some source)⟩ : SourcesEvent) ∈
          log ++ [⟨.findFetchTarget sourceId, .ok (some source)⟩] := by simp
      show EmitsAfter JobAsks _ ((fetchAndRecord source).attempt >>= fun ended =>
        match ended with
        | .ok () => .ret ()
        | .error error => recordFailure source error)
      refine emitsAfter_bind (emitsAfter_attempt (fetchAndRecord_asks hread)) fun ended log => ?_
      cases ended with
      | ok done => trivial
      | error error =>
        exact emitsAfter_bind ⟨.inl ⟨rfl, rfl⟩, fun answer => emitsAfter_stored answer⟩ fun _ _ => trivial

end Newsdeck.Sources

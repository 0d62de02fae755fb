import Newsdeck.Ecma.Text

/-!
# Fetching a feed

What `fetchFeed` returns, and what it throws.
-/

namespace Newsdeck.Worker

open Ecma

inductive FeedFetchErrorReason where
  | invalidScheme
  | timeout
  | network
  | tooManyRedirects
  | oversized
  | httpError
  deriving DecidableEq, Repr

structure FeedFetchError where
  reason : FeedFetchErrorReason
  retryable : Bool
  message : Text
  status : Option ℕ
  deriving DecidableEq, Repr

/-- What a call of `fetchFeed` may throw. -/
inductive FetchFailure where
  | feedFetch (error : FeedFetchError)
  /-- Any other error, by its message. -/
  | other (message : Text)
  deriving DecidableEq, Repr

inductive FetchFeedResult where
  | notModified
  | fetched (body : Text) (contentType etag lastModified : Option Text)
  deriving DecidableEq, Repr

end Newsdeck.Worker

import Newsdeck.Ecma.Json
import Newsdeck.Library.Effects
import Newsdeck.Worker.FeedFetcher

/-!
# The requests of `fetchFeed`

`fetchFeed` follows redirects itself, and reads the body of the response at the end of them chunk by
chunk.  Servers answer as they like.

* `FeedOp` — the operations: a request, a chunk of the body, and giving the body up;
* `FeedPlatform` — what the platform supplies: URLs, numbers and the decoder;
* `fetchFeed` — the fetch.  A body may go on forever, so that it is read up to a number of chunks; a
  fetch that is still reading then has no result yet.
-/

namespace Newsdeck.Worker

open Ecma Effects

/-! ### The platform -/

/-- A URL as the platform has parsed it. -/
structure ParsedUrl where
  scheme : Text
  /-- What follows the colon. -/
  rest : Text
  deriving DecidableEq, Repr

namespace ParsedUrl

def protocol (url : ParsedUrl) : Text := url.scheme ++ lit ":"

/-- `url.toString()`. -/
def toText (url : ParsedUrl) : Text := url.protocol ++ url.rest

end ParsedUrl

class FeedPlatform where
  /-- `new URL(raw)`; `none` when it throws. -/
  parse : Text → Option ParsedUrl
  /-- `new URL(location, base)`, or the message of the error it throws. -/
  resolve : Text → Text → Except Text ParsedUrl
  /-- `Number(text)`; `none` when it is not finite. -/
  toNumber : Text → Option ℚ
  /-- `new TextDecoder().decode(bytes)`. -/
  decode : List ℕ → Text

/-! ### Operations -/

structure Response where
  status : ℕ
  location : Option Text
  contentLength : Option Text
  contentType : Option Text
  etag : Option Text
  lastModified : Option Text
  /-- `response.body` is not `null`. -/
  hasBody : Bool
  deriving DecidableEq, Repr

def Response.ok (response : Response) : Bool := 200 ≤ response.status && response.status ≤ 299

/-- A request that is rejected; by then the timer may have fired. -/
structure RequestFailure where
  timedOut : Bool
  message : Text
  deriving DecidableEq, Repr

inductive FeedOp where
  | request (url : Text) (headers : List (Text × Text))
  /-- `reader.read()`. -/
  | read
  /-- `reader.cancel()`. -/
  | cancel

def FeedOp.Answer : FeedOp → Type
  | request _ _ => Except RequestFailure Response
  -- The bytes of a chunk; `none` at the end of the body.
  | read => Except Text (Option (List ℕ))
  | cancel => Except Text Unit

abbrev FeedEvent := Event FeedOp FeedOp.Answer

abbrev FeedAction (α : Type) := Prog FeedOp FeedOp.Answer FetchFailure α

/-- An error that is not caught. -/
def uncaught {α : Type} : Except Text α → FeedAction α
  | .ok a => .ret a
  | .error message => .throw (.other message)

def read : FeedAction (Option (List ℕ)) := .call .read uncaught

def cancel : FeedAction Unit := .call .cancel uncaught

/-! ### The fetch -/

structure FetchFeedOptions where
  url : Text
  etag : Option Text
  lastModified : Option Text
  timeoutMs : ℕ := 10000
  maxBytes : ℕ := 5000000
  maxRedirects : ℕ := 5
  userAgent : Text := lit "Newsdeck-Collector/1.0 (+https://github.com/eastasann/space-elysiajs-orpc)"

section Fetch

variable [Host] [FeedPlatform]

def quoted (text : Text) : Text := lit "\"" ++ text ++ lit "\""

def invalidScheme (message : Text) : FeedFetchError := ⟨.invalidScheme, false, message, none⟩

def assertHttpUrl (raw : Text) : Except FeedFetchError Text :=
  match FeedPlatform.parse raw with
  | none => .error (invalidScheme (quoted raw ++ lit " is not a valid URL"))
  | some parsed =>
      if parsed.protocol ≠ lit "http:" ∧ parsed.protocol ≠ lit "https:" then
        .error (invalidScheme (lit "refusing non-http(s) scheme " ++ quoted parsed.protocol ++ lit " for " ++
          quoted raw))
      else .ok parsed.toText

def feedFetchError {α : Type} (result : Except FeedFetchError α) : FeedAction α :=
  .raise (result.mapError .feedFetch)

/-- `Number(response.headers.get('content-length'))`, when it is finite. -/
def declaredLength (response : Response) : Option ℚ :=
  match response.contentLength with
  | none => some 0
  | some text => FeedPlatform.toNumber text

def oversized (message : Text) : FetchFailure := .feedFetch ⟨.oversized, false, message, none⟩

/-- The loop over the chunks, so many of them at most. -/
def readChunks (maxBytes : ℕ) : ℕ → List (List ℕ) → ℕ → FeedAction (Option Text)
  | 0, _, _ => .ret none
  | fuel + 1, chunks, total => do
      match ← read with
      | none => .ret (some (FeedPlatform.decode chunks.flatten))
      | some value =>
          let total := total + value.length
          if maxBytes < total then do
            cancel
            .throw (oversized (lit "response exceeded the " ++ decimal maxBytes ++ lit " byte limit"))
          else readChunks maxBytes fuel (chunks ++ [value]) total

/-- A response without a body has the empty text. -/
def readBody (fuel : ℕ) (response : Response) (maxBytes : ℕ) : FeedAction (Option Text) :=
  if response.hasBody then readChunks maxBytes fuel [] 0 else .ret (some (FeedPlatform.decode []))

def readBoundedBody (fuel : ℕ) (response : Response) (maxBytes : ℕ) : FeedAction (Option Text) :=
  match declaredLength response with
  | none => readBody fuel response maxBytes
  | some declared =>
      if maxBytes < declared then
        .throw (oversized (lit "declared content-length " ++ Json.numeral declared ++ lit " exceeds the " ++
          decimal maxBytes ++ lit " byte limit"))
      else readBody fuel response maxBytes

/-- A header that is sent when there is something to send. -/
def conditional (name : Text) : Option Text → List (Text × Text)
  | none => []
  | some value => if value = [] then [] else [(name, value)]

def requestHeaders (options : FetchFeedOptions) : List (Text × Text) :=
  [(lit "User-Agent", options.userAgent),
    (lit "Accept", lit "application/rss+xml, application/atom+xml, application/xml, text/xml, */*")] ++
    conditional (lit "If-None-Match") options.etag ++
    conditional (lit "If-Modified-Since") options.lastModified

/-- The request, and its `catch`. -/
def sendRequest (options : FetchFeedOptions) (currentUrl : Text) : FeedAction Response :=
  .call (.request currentUrl (requestHeaders options)) fun
    | .ok response => .ret response
    | .error failure =>
        if failure.timedOut then
          .throw (.feedFetch ⟨.timeout, true, lit "request to " ++ quoted currentUrl ++
            lit " timed out after " ++ decimal options.timeoutMs ++ lit "ms", none⟩)
        else
          .throw (.feedFetch ⟨.network, true, lit "request to " ++ quoted currentUrl ++ lit " failed: " ++
            failure.message, none⟩)

def httpError (retryable : Bool) (status : ℕ) (currentUrl : Text) : FetchFailure :=
  .feedFetch ⟨.httpError, retryable,
    lit "feed responded " ++ decimal status ++ lit " for " ++ quoted currentUrl, some status⟩

/-- What follows the branch of the redirects. -/
def finish (fuel : ℕ) (options : FetchFeedOptions) (currentUrl : Text) (response : Response) :
    FeedAction (Option FetchFeedResult) :=
  if response.status = 404 ∨ response.status = 410 then
    .throw (httpError false response.status currentUrl)
  else if 500 ≤ response.status then .throw (httpError true response.status currentUrl)
  else if !response.ok then .throw (httpError false response.status currentUrl)
  else do
    let body ← readBoundedBody fuel response options.maxBytes
    .ret (body.map fun body =>
      .fetched body response.contentType response.etag response.lastModified)

/-- The loop over the redirects; the first argument counts those that may still be followed. -/
def follow (fuel : ℕ) (options : FetchFeedOptions) : ℕ → Text → FeedAction (Option FetchFeedResult)
  | remaining, currentUrl => do
      let response ← sendRequest options currentUrl
      if response.status = 304 then .ret (some .notModified)
      else if 300 ≤ response.status ∧ response.status < 400 then
        match response.location.filter (· ≠ []) with
        | none =>
            .throw (.feedFetch ⟨.httpError, false, lit "redirect from " ++ quoted currentUrl ++
              lit " carried no Location header (status " ++ decimal response.status ++ lit ")",
              some response.status⟩)
        | some location =>
            match remaining with
            | 0 =>
                .throw (.feedFetch ⟨.tooManyRedirects, false, quoted options.url ++ lit " exceeded " ++
                  decimal options.maxRedirects ++ lit " redirects", some response.status⟩)
            | remaining + 1 => do
                let target ← uncaught (FeedPlatform.resolve location currentUrl)
                let next ← feedFetchError (assertHttpUrl target.toText)
                follow fuel options remaining next
      else finish fuel options currentUrl response

def fetchFeed (fuel : ℕ) (options : FetchFeedOptions) : FeedAction (Option FetchFeedResult) := do
  let currentUrl ← feedFetchError (assertHttpUrl options.url)
  follow fuel options options.maxRedirects currentUrl

end Fetch

end Newsdeck.Worker

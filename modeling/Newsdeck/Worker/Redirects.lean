import Mathlib.Data.List.Chain
import Newsdeck.Library.Histories
import Newsdeck.Worker.FetchFeed

/-!
# What a fetch asks for, and how much it takes

However the servers answer, and wherever the fetch is interrupted:

* `readChunks_spec` — the body is what the chunks hold, and they are not too many bytes;
* `AtHead`, `follow_spec` — the invariant of the loop over the redirects, and what it leads to;
* `fetchFeed_bounded` — the requests are few, each goes to an http(s) URL, and each after the first
  to the target of the answer before it; and a body is not too large.
-/

namespace Newsdeck.Worker

open Ecma Effects

/-- A request that was made, and its answer. -/
structure Requested where
  url : Text
  answer : Except RequestFailure Response

def requested : FeedEvent → Option Requested
  | ⟨.request url _, answer⟩ => some ⟨url, answer⟩
  | _ => none

def requests (log : List FeedEvent) : List Requested := log.filterMap requested

/-- The bytes of a chunk that was read. -/
def chunkRead : FeedEvent → Option (List ℕ)
  | ⟨.read, .ok (some value)⟩ => some value
  | _ => none

def chunksRead (log : List FeedEvent) : List (List ℕ) := log.filterMap chunkRead

def IsHttpText (url : Text) : Prop := lit "http:" <+: url ∨ lit "https:" <+: url

section Requests

variable [Host] [FeedPlatform] {options : FetchFeedOptions} {log : List FeedEvent} {url raw : Text}

omit [Host] in
theorem assertHttpUrl_ok (h : assertHttpUrl raw = .ok url) :
    ∃ parsed, FeedPlatform.parse raw = some parsed ∧
    parsed.toText = url ∧ (parsed.protocol = lit "http:" ∨ parsed.protocol = lit "https:") := by
  unfold assertHttpUrl at h
  split at h
  · cases h
  · rename_i parsed hparsed
    split at h
    · cases h
    · rename_i hscheme
      refine ⟨parsed, hparsed, Except.ok.inj h, ?_⟩
      by_contra hnot
      exact hscheme (not_or.mp hnot)

omit [Host] in
theorem isHttpText_of_assert (h : assertHttpUrl raw = .ok url) : IsHttpText url := by
  obtain ⟨parsed, -, rfl, hscheme⟩ := assertHttpUrl_ok h
  unfold IsHttpText ParsedUrl.toText
  rcases hscheme with hscheme | hscheme
  · rw [hscheme]
    exact .inl (List.prefix_append _ _)
  · rw [hscheme]
    exact .inr (List.prefix_append _ _)

/-- The second request goes where the first was sent, resolved against the URL that answered. -/
def Redirected (first second : Requested) : Prop :=
  ∃ response location target, first.answer = .ok response ∧ response.location = some location ∧
    FeedPlatform.resolve location first.url = .ok target ∧
      assertHttpUrl target.toText = .ok second.url

/-! ### The body -/

omit [Host] [FeedPlatform] in
theorem requests_snoc (event : FeedEvent) :
    requests (log ++ [event]) = requests log ++ (requested event).toList := by
  unfold requests
  rw [List.filterMap_append]
  cases h : requested event <;> simp [h]

omit [Host] [FeedPlatform] in
theorem chunksRead_snoc (event : FeedEvent) :
    chunksRead (log ++ [event]) = chunksRead log ++ (chunkRead event).toList := by
  unfold chunksRead
  rw [List.filterMap_append]
  cases h : chunkRead event <;> simp [h]

omit [Host] [FeedPlatform] in
/-- One event more. -/
theorem ensures_logged {α : Type} {crash : List FeedEvent → Prop}
    {exc : FetchFailure → List FeedEvent → Prop}
    {post : α → List FeedEvent → Prop} {op : FeedOp} {next : op.Answer → FeedAction α}
    (hcrash : crash log)
    (h : ∀ answer, Ensures (Appends some) crash exc (next answer) (log ++ [⟨op, answer⟩]) post) :
    Ensures (Appends some) crash exc (.call op next) log post :=
  ensures_call hcrash fun answer log' hstep => by
    obtain rfl : log' = log ++ [(⟨op, answer⟩ : FeedEvent)] := hstep
    exact h answer

omit [Host] [FeedPlatform] in
theorem ensures_feedFetchError {α : Type} {crash : List FeedEvent → Prop}
    {exc : FetchFailure → List FeedEvent → Prop} {post : α → List FeedEvent → Prop}
    {result : Except FeedFetchError α} (hok : ∀ a, result = .ok a → post a log)
    (herror : ∀ error, result = .error error → exc (.feedFetch error) log) :
    Ensures (Appends some) crash exc (feedFetchError result) log post := by
  cases result with
  | ok a => exact ensures_ret (hok a rfl)
  | error error => exact ensures_throw (herror error rfl)

/-- The text is that of the chunks that were read, and these are not too large. -/
def Decodes (options : FetchFeedOptions) (log : List FeedEvent) (body : Text) : Prop :=
  body = FeedPlatform.decode (chunksRead log).flatten ∧
    (chunksRead log).flatten.length ≤ options.maxBytes

omit [Host] in
/-- Reading makes no request; what has been read so far is not too large. -/
theorem readChunks_spec (fuel : ℕ) : ∀ log : List FeedEvent,
    (chunksRead log).flatten.length ≤ options.maxBytes →
    Ensures (Appends some) (fun log' => requests log' = requests log)
      (fun _ log' => requests log' = requests log)
      (readChunks options.maxBytes fuel (chunksRead log) (chunksRead log).flatten.length) log
      fun result log' => requests log' = requests log ∧ ∀ body,
        result = some body → Decodes options log' body := by
  induction fuel with
  | zero => exact fun log _ => ensures_ret ⟨rfl, by simp⟩
  | succ fuel ih =>
    intro log hsmall
    refine ensures_bind (ensures_logged rfl fun answer => ?_)
    have hquiet : requests (log ++ [⟨.read, answer⟩]) = requests log := by
      rw [requests_snoc]
      exact List.append_nil _
    match answer with
    | .error message => exact ensures_throw hquiet
    | .ok none =>
      refine ensures_ret (ensures_ret ⟨hquiet, fun body hbody => ?_⟩)
      have hsame : chunksRead (log ++ [⟨.read, .ok none⟩]) = chunksRead log := by
        rw [chunksRead_snoc]
        exact List.append_nil _
      obtain rfl := Option.some.inj hbody
      unfold Decodes
      rw [hsame]
      exact ⟨rfl, hsmall⟩
    | .ok (some value) =>
      have hmore : chunksRead (log ++ [⟨.read, .ok (some value)⟩]) = chunksRead log ++ [value] :=
        chunksRead_snoc _
      have htotal : (chunksRead log).flatten.length + value.length =
          (chunksRead log ++ [value]).flatten.length := by simp
      refine ensures_ret ?_
      show Ensures _ _ _ (if _ then _ else _) _ _
      split
      · -- One chunk too many: the rest is given up.
        refine ensures_bind (ensures_logged hquiet fun answer => ?_)
        have hcancel : requests (log ++ [⟨.read, .ok (some value)⟩] ++ [⟨.cancel, answer⟩]) =
            requests log := by
          rw [requests_snoc, hquiet]
          exact List.append_nil _
        match answer with
        | .ok () => exact ensures_ret (ensures_throw hcancel)
        | .error message => exact ensures_throw hcancel
      · rename_i hfits
        have hlater := ih (log ++ [⟨.read, .ok (some value)⟩]) (by rw [hmore]; omega)
        rw [hmore, hquiet, ← htotal] at hlater
        exact hlater

omit [Host] in
theorem readBody_spec (fuel : ℕ) (response : Response) (hnone : chunksRead log = []) :
    Ensures (Appends some) (fun log' => requests log' = requests log)
      (fun _ log' => requests log' = requests log) (readBody fuel response options.maxBytes) log
      fun result log' => requests log' = requests log ∧ ∀ body,
        result = some body → Decodes options log' body := by
  unfold readBody
  split
  · have hread := @readChunks_spec _ options fuel log (by simp [hnone])
    rw [hnone] at hread
    exact hread
  · refine ensures_ret ⟨rfl, fun body hbody => ?_⟩
    obtain rfl := Option.some.inj hbody
    unfold Decodes
    rw [hnone]
    exact ⟨rfl, Nat.zero_le _⟩

/-! ### The redirects -/

/-- What holds of the requests that were made. -/
structure Bounded (options : FetchFeedOptions) (log : List FeedEvent) : Prop where
  few : (requests log).length ≤ options.maxRedirects + 1
  http : ∀ request ∈ requests log, IsHttpText request.url
  started : ∀ request, (requests log).head? = some request →
    assertHttpUrl options.url = .ok request.url
  chained : (requests log).IsChain Redirected

/-- What holds before the next request: so many redirects are left, and the URL is where the last
answer leads. -/
structure AtHead (options : FetchFeedOptions) (log : List FeedEvent) (remaining : ℕ) (url : Text) :
    Prop where
  counted : (requests log).length + remaining = options.maxRedirects
  bounded : Bounded options log
  next : IsHttpText url
  first : requests log = [] → assertHttpUrl options.url = .ok url
  linked : ∀ last, (requests log).getLast? = some last → ∀ answer, Redirected last ⟨url, answer⟩
  quiet : chunksRead log = []

omit [Host] in
theorem Bounded.of_requests {log' : List FeedEvent} (h : Bounded options log)
    (hsame : requests log' = requests log) : Bounded options log' := by
  obtain ⟨few, http, started, chained⟩ := h
  rw [← hsame] at few http started chained
  exact ⟨few, http, started, chained⟩

omit [Host] in
/-- One request more. -/
theorem AtHead.request {remaining : ℕ} (h : AtHead options log remaining url)
    (headers : List (Text × Text)) (answer : Except RequestFailure Response) :
    requests (log ++ [⟨.request url headers, answer⟩]) = requests log ++ [⟨url, answer⟩] ∧
      Bounded options (log ++ [⟨.request url headers, answer⟩]) ∧
      chunksRead (log ++ [⟨.request url headers, answer⟩]) = [] := by
  have hmore : requests (log ++ [⟨.request url headers, answer⟩]) =
      requests log ++ [⟨url, answer⟩] :=
    requests_snoc _
  have hquiet : chunksRead (log ++ [⟨.request url headers, answer⟩]) = [] := by
    rw [chunksRead_snoc, h.quiet]
    rfl
  refine ⟨hmore, ⟨?_, ?_, ?_, ?_⟩, hquiet⟩
  · have hcounted := h.counted
    rw [hmore, List.length_append, List.length_singleton]
    omega
  · rw [hmore]
    intro request hrequest
    rcases List.mem_append.mp hrequest with hbefore | hlast
    · exact h.bounded.http request hbefore
    · rw [List.mem_singleton.mp hlast]
      exact h.next
  · rw [hmore]
    intro request hrequest
    cases hempty : requests log with
    | nil =>
      rw [hempty] at hrequest
      obtain rfl := Option.some.inj hrequest
      exact h.first hempty
    | cons head rest =>
      rw [hempty] at hrequest
      exact h.bounded.started request (hempty ▸ hrequest)
  · rw [hmore]
    refine h.bounded.chained.append (List.isChain_singleton _) fun last hlast next hnext => ?_
    obtain rfl := Option.some.inj hnext
    exact h.linked last hlast answer

/-- A body that is returned is what was read. -/
def Ended (options : FetchFeedOptions) (result : Option FetchFeedResult)
    (log : List FeedEvent) : Prop :=
  Bounded options log ∧ ∀ body contentType etag lastModified,
    result = some (.fetched body contentType etag lastModified) → Decodes options log body

theorem finish_spec (fuel : ℕ) (response : Response) (hbounded : Bounded options log)
    (hquiet : chunksRead log = []) :
    Ensures (Appends some) (Bounded options) (fun _ => Bounded options)
      (finish fuel options url response)
      log (Ended options) := by
  have hbody : Ensures (Appends some) (Bounded options) (fun _ => Bounded options) (do
      let body ← readBoundedBody fuel response options.maxBytes
      .ret (body.map fun body =>
        .fetched body response.contentType response.etag response.lastModified))
      log (Ended options) := by
    refine ensures_bind ?_
    have hread : Ensures (Appends some) (Bounded options) (fun _ => Bounded options)
        (readBody fuel response options.maxBytes) log fun result log' => Bounded options log' ∧
          ∀ body, result = some body → Decodes options log' body :=
      (readBody_spec fuel response hquiet).mono (fun _ _ h => ⟨hbounded.of_requests h.1, h.2⟩)
        (fun _ _ h => hbounded.of_requests h) fun _ h => hbounded.of_requests h
    have hend : ∀ result log', (Bounded options log' ∧ ∀ body, result = some body →
      Decodes options log' body) →
        Ensures (Appends some) (Bounded options) (fun _ => Bounded options)
          (.ret (result.map fun body =>
          .fetched body response.contentType response.etag response.lastModified) :
            FeedAction (Option FetchFeedResult)) log' (Ended options) := by
      rintro result log' ⟨hbounded', hdecodes⟩
      refine ensures_ret ⟨hbounded', fun body contentType etag lastModified hbody => ?_⟩
      obtain ⟨text, htext, heq⟩ := Option.map_eq_some_iff.mp hbody
      cases heq
      exact hdecodes _ htext
    unfold readBoundedBody
    split
    · exact hread.weaken hend
    · split
      · exact ensures_throw hbounded
      · exact hread.weaken hend
  unfold finish
  split
  · exact ensures_throw hbounded
  · split
    · exact ensures_throw hbounded
    · split
      · exact ensures_throw hbounded
      · exact hbody

/-- One round of the loop, before the rounds that follow. -/
theorem follow_round (fuel remaining : ℕ) (hlater : ∀ left, remaining = left + 1 →
      ∀ (log : List FeedEvent) (url : Text), AtHead options log left url →
      Ensures (Appends some) (Bounded options) (fun _ => Bounded options)
        (follow fuel options left url) log
        (Ended options))
    (hhead : AtHead options log remaining url) :
    Ensures (Appends some) (Bounded options) (fun _ => Bounded options)
      (follow fuel options remaining url)
      log (Ended options) := by
  unfold follow
  refine ensures_bind (ensures_logged hhead.bounded fun answer => ?_)
  obtain ⟨hmore, hbounded, hquiet⟩ := hhead.request (requestHeaders options) answer
  cases answer with
  | error failure =>
    show Ensures _ _ _ (if _ then _ else _) _ _
    split
    · exact ensures_throw hbounded
    · exact ensures_throw hbounded
  | ok response =>
    refine ensures_ret ?_
    split
    · exact ensures_ret ⟨hbounded, by simp⟩
    · split
      · split
        · exact ensures_throw hbounded
        · rename_i location hlocation
          obtain ⟨hsome, -⟩ := Option.filter_eq_some_iff.mp hlocation
          split
          · exact ensures_throw hbounded
          · rename_i left
            refine ensures_bind ?_
            cases hresolve : FeedPlatform.resolve location url with
            | error message => exact ensures_throw hbounded
            | ok target =>
              refine ensures_ret (ensures_bind (ensures_feedFetchError (fun next hassert => ?_)
                fun _ _ => hbounded))
              refine hlater left rfl _ next
                ⟨?_, hbounded, isHttpText_of_assert hassert, ?_, ?_, hquiet⟩
              · have hcounted := hhead.counted
                rw [hmore, List.length_append, List.length_singleton]
                omega
              · intro hempty
                rw [hmore] at hempty
                simp at hempty
              · rw [hmore, List.getLast?_concat]
                rintro last hlast answer
                obtain rfl := Option.some.inj hlast
                exact ⟨response, location, target, rfl, hsome, hresolve, hassert⟩
      · exact finish_spec fuel response hbounded hquiet

/-- **The loop**, from any of its heads. -/
theorem follow_spec (fuel remaining : ℕ) : ∀ (log : List FeedEvent) (url : Text),
    AtHead options log remaining url →
    Ensures (Appends some) (Bounded options) (fun _ => Bounded options)
      (follow fuel options remaining url)
      log (Ended options) := by
  induction remaining with
  | zero => exact fun log url => follow_round fuel 0 (by simp)
  | succ remaining ih =>
    refine fun log url => follow_round fuel (remaining + 1) fun left hleft => ?_
    obtain rfl : remaining = left := Nat.succ.inj hleft
    exact ih

end Requests

/-- **The fetch.**  There are at most as many requests as redirects that may be followed, and one.
The first goes to the URL that was given, and each after it to the target of the answer before it,
resolved against the URL that answered; all of these are http(s) URLs.  A body that is returned is
what the chunks of the last response held, and these are no more bytes than allowed. -/
theorem fetchFeed_bounded [Host] [FeedPlatform] (fuel : ℕ) (options : FetchFeedOptions)
    {trace : List FeedEvent} {outcome : Outcome FetchFailure (Option FetchFeedResult)}
    (hrun : Run (fetchFeed fuel options) trace outcome) :
    (requests trace).length ≤ options.maxRedirects + 1 ∧
    (∀ request ∈ requests trace, IsHttpText request.url) ∧
    (∀ request, (requests trace).head? = some request →
      assertHttpUrl options.url = .ok request.url) ∧
    (requests trace).IsChain Redirected ∧
    ∀ body contentType etag lastModified,
      outcome = .returned (some (.fetched body contentType etag lastModified)) →
      body = FeedPlatform.decode (chunksRead trace).flatten ∧
        (chunksRead trace).flatten.length ≤ options.maxBytes := by
  have hnone : Bounded options [] :=
    ⟨Nat.zero_le _, by simp [requests], by simp [requests], List.isChain_nil⟩
  have hspec : Ensures (Appends some) (Bounded options) (fun _ => Bounded options)
    (fetchFeed fuel options) []
      (Ended options) := by
    refine ensures_bind (ensures_feedFetchError (fun url hassert => ?_) fun _ _ => hnone)
    exact follow_spec fuel _ [] url ⟨Nat.zero_add _, hnone, isHttpText_of_assert hassert,
      fun _ => hassert, by simp [requests], rfl⟩
  have hmeets := hspec trace outcome trace hrun (by simpa using steps_appends some [] trace)
  have hbounded : Bounded options trace := by
    cases outcome with
    | returned result => exact hmeets.1
    | threw failure => exact hmeets
    | interrupted => exact hmeets
  refine ⟨hbounded.few, hbounded.http, hbounded.started, hbounded.chained, ?_⟩
  rintro body contentType etag lastModified rfl
  exact hmeets.2 body contentType etag lastModified rfl

/-! ### A fetch -/

/-- A platform that reads URLs with a host, the paths on it, decimal lengths and ASCII. -/
@[reducible] def plainPlatform : FeedPlatform where
  parse raw :=
    if 58 ∈ raw ∧ raw.dropWhile (· ≠ 58) ≠ lit "://" then
      some ⟨raw.takeWhile (· ≠ 58), (raw.dropWhile (· ≠ 58)).tail⟩
    else none
  resolve location base :=
    let scheme := base.takeWhile (· ≠ 58)
    let host := (base.drop (scheme.length + 3)).takeWhile (· ≠ 47)
    if location.head? = some 47 then .ok ⟨scheme, lit "//" ++ host ++ location⟩
    else if 58 ∈ location ∧ location.dropWhile (· ≠ 58) ≠ lit "://" then
      .ok ⟨location.takeWhile (· ≠ 58), (location.dropWhile (· ≠ 58)).tail⟩
    else .error (lit "Invalid URL")
  toNumber text := if text.all Json.isDigit then some (Json.digitsValue text) else none
  decode := id

/-- Servers that answer with the responses, and the chunks of a body. -/
def serve : List Response × List (Option (List ℕ)) → (op : FeedOp) →
    Option (op.Answer × (List Response × List (Option (List ℕ))))
  | (response :: responses, chunks), .request _ _ => some (.ok response, responses, chunks)
  | (responses, chunk :: chunks), .read => some (.ok chunk, responses, chunks)
  | script, .cancel => some (.ok (), script)
  | _, _ => none

def redirectTo (location : String) : Response :=
  ⟨302, some (lit location), none, none, none, none, false⟩

def document : Response := ⟨200, none, some (lit "2"), none, none, none, true⟩

def feedAt (url : String) : FetchFeedOptions where
  url := lit url
  etag := none
  lastModified := none

/-- A feed that has moved. -/
def movedFeed : List FeedEvent × Outcome FetchFailure (Option FetchFeedResult) ×
    (List Response × List (Option (List ℕ))) :=
  play serve (@fetchFeed asciiHost plainPlatform 3 (feedAt "https://one.test/feed"))
    ([redirectTo "/new", document], [some (lit "h"), some (lit "i"), none])

/-- The text of a feed that was fetched. -/
def fetchedText : Outcome FetchFailure (Option FetchFeedResult) → Option Text
  | .returned (some (.fetched body _ _ _)) => some body
  | _ => none

theorem fetchFeed_bounded_moved : (requests movedFeed.1).length ≤ 6 ∧
    lit "hi" = (chunksRead movedFeed.1).flatten := by
  have hbounded := @fetchFeed_bounded asciiHost plainPlatform 3 (feedAt "https://one.test/feed") _ _
    (run_play serve _ ([redirectTo "/new", document], [some (lit "h"), some (lit "i"), none]))
  have htext : fetchedText movedFeed.2.1 = some (lit "hi") := by decide +kernel
  unfold fetchedText at htext
  split at htext
  · rename_i body contentType etag lastModified houtcome
    obtain rfl := Option.some.inj htext
    exact ⟨hbounded.1, (hbounded.2.2.2.2 _ _ _ _ houtcome).1⟩
  · cases htext

end Newsdeck.Worker

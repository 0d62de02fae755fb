import Newsdeck.Sources.Fetch
import Newsdeck.Worker.Redirects

/-!
# How a fetch fails, and what becomes of the job

The job goes by the class of the error: only a `FeedFetchError` says whether to try again.

* `Broken` — the answers that no `catch` of the fetch is for: a `Location` that is no URL, and a
  body that cannot be read to its end;
* `follow_classified` — whatever fails in the loop fails with a `FeedFetchError`, unless an answer
  is broken;
* `fetchFeed_failures` — so it is exactly in the runs without a broken answer, and the job goes by
  it.
-/

namespace Newsdeck.Worker

open Ecma Effects

section Failures

variable [Host] [FeedPlatform] {options : FetchFeedOptions} {log : List FeedEvent} {url : Text}

/-- The answer makes the fetch throw something that is not caught. -/
def Broken (options : FetchFeedOptions) (before : List FeedEvent) : FeedEvent → Prop
  | ⟨.read, .error _⟩ => True
  | ⟨.cancel, .error _⟩ => True
  | ⟨.request url _, .ok response⟩ =>
      -- A redirect that may still be followed.
      response.status ≠ 304 ∧ (300 ≤ response.status ∧ response.status < 400) ∧
        (requests before).length < options.maxRedirects ∧ ∃ location message,
          response.location = some location ∧ location ≠ [] ∧
            FeedPlatform.resolve location url = .error message
  | _ => False

/-- No answer is broken. -/
def Clean (options : FetchFeedOptions) (log : List FeedEvent) : Prop :=
  ∀ before event after, log = before ++ event :: after → ¬ Broken options before event

omit [Host] in
theorem clean_nil : Clean options [] := by
  intro before event after h
  simp at h

omit [Host] in
theorem clean_snoc {event : FeedEvent} (h : Clean options log) :
    Clean options (log ++ [event]) ↔ ¬ Broken options log event := by
  constructor
  · exact fun hall => hall log event [] rfl
  · intro hlast before e after hlog
    rcases List.eq_nil_or_concat after with rfl | ⟨rest, final, rfl⟩
    · obtain ⟨rfl, heq⟩ := List.append_inj' hlog rfl
      obtain rfl := (List.cons.inj heq).1
      exact hlast
    · have hcons : before ++ e :: (rest ++ [final]) = (before ++ e :: rest) ++ [final] := by simp
      rw [List.concat_eq_append, hcons] at hlog
      exact h before e rest (List.append_inj' hlog rfl).1

/-- The failure is a `FeedFetchError`, unless an answer is broken. -/
def Classified (options : FetchFeedOptions) (failure : FetchFailure)
    (log : List FeedEvent) : Prop :=
  (∃ error, failure = .feedFetch error) ↔ Clean options log

omit [Host] in
theorem classified_feedFetch (h : Clean options log) (error : FeedFetchError) :
    Classified options (.feedFetch error) log :=
  iff_of_true ⟨error, rfl⟩ h

omit [Host] in
/-- An error that is not caught comes from a broken answer. -/
theorem classified_other (event : FeedEvent) (h : Clean options log)
    (hbroken : Broken options log event)
    (message : Text) : Classified options (.other message) (log ++ [event]) :=
  iff_of_false (by simp) fun hclean => (clean_snoc h).mp hclean hbroken

omit [Host] in
/-- The body, from a log without a broken answer. -/
theorem readChunks_classified (fuel : ℕ) : ∀ (log : List FeedEvent) (seen : List (List ℕ))
    (total : ℕ), Clean options log →
    Ensures (Appends some) (Clean options) (Classified options)
      (readChunks options.maxBytes fuel seen total) log fun _ => Clean options := by
  induction fuel with
  | zero => exact fun log _ _ hclean => ensures_ret hclean
  | succ fuel ih =>
    intro log seen total hclean
    refine ensures_bind (ensures_logged hclean fun answer => ?_)
    match answer with
    | .error message =>
      exact ensures_throw (classified_other ⟨.read, .error message⟩ hclean trivial message)
    | .ok none => exact ensures_ret (ensures_ret ((clean_snoc hclean).mpr id))
    | .ok (some value) =>
      have hread : Clean options (log ++ [⟨.read, .ok (some value)⟩]) := (clean_snoc hclean).mpr id
      refine ensures_ret ?_
      show Ensures _ _ _ (if _ then _ else _) _ _
      split
      · refine ensures_bind (ensures_logged hread fun answer => ?_)
        match answer with
        | .ok () =>
          exact ensures_ret (ensures_throw (classified_feedFetch ((clean_snoc hread).mpr id) _))
        | .error message =>
          exact ensures_throw (classified_other ⟨.cancel, .error message⟩ hread trivial message)
      · exact ih _ _ _ hread

theorem finish_classified (fuel : ℕ) (response : Response) (hclean : Clean options log) :
    Ensures (Appends some) (Clean options) (Classified options)
      (finish fuel options url response) log
      fun _ => Clean options := by
  have hbody : Ensures (Appends some) (Clean options) (Classified options)
      (readBody fuel response options.maxBytes) log fun _ => Clean options := by
    unfold readBody
    split
    · exact readChunks_classified fuel log [] 0 hclean
    · exact ensures_ret hclean
  have hbounded : Ensures (Appends some) (Clean options) (Classified options)
      (readBoundedBody fuel response options.maxBytes) log fun _ => Clean options := by
    unfold readBoundedBody
    split
    · exact hbody
    · split
      · exact ensures_throw (classified_feedFetch hclean _)
      · exact hbody
  unfold finish
  split
  · exact ensures_throw (classified_feedFetch hclean _)
  · split
    · exact ensures_throw (classified_feedFetch hclean _)
    · split
      · exact ensures_throw (classified_feedFetch hclean _)
      · exact ensures_bind (hbounded.weaken fun _ _ hclean' => ensures_ret hclean')

/-- One round of the loop, before the rounds that follow. -/
theorem follow_classified_round (fuel remaining : ℕ) (hlater : ∀ left, remaining = left + 1 →
      ∀ (log : List FeedEvent) (url : Text), Clean options log →
      (requests log).length + left = options.maxRedirects →
      Ensures (Appends some) (Clean options) (Classified options) (follow fuel options left url) log
        fun _ => Clean options)
    (hclean : Clean options log) (hcount : (requests log).length + remaining =
      options.maxRedirects) :
    Ensures (Appends some) (Clean options) (Classified options)
      (follow fuel options remaining url) log
      fun _ => Clean options := by
  unfold follow
  refine ensures_bind (ensures_logged hclean fun answer => ?_)
  cases answer with
  | error failure =>
    have hfailed : Clean options
        (log ++ [⟨.request url (requestHeaders options), .error failure⟩]) :=
      (clean_snoc hclean).mpr id
    show Ensures _ _ _ (if _ then _ else _) _ _
    split
    · exact ensures_throw (classified_feedFetch hfailed _)
    · exact ensures_throw (classified_feedFetch hfailed _)
  | ok response =>
    have hanswered
      (hfine : ¬ Broken options log ⟨.request url (requestHeaders options), .ok response⟩) :
        Clean options (log ++ [⟨.request url (requestHeaders options), .ok response⟩]) :=
      (clean_snoc hclean).mpr hfine
    refine ensures_ret ?_
    split
    · rename_i hstatus
      exact ensures_ret (hanswered fun hbroken => hbroken.1 hstatus)
    · rename_i hmodified
      split
      · rename_i hredirect
        split
        · rename_i hlocation
          refine ensures_throw (classified_feedFetch (hanswered ?_) _)
          rintro ⟨-, -, -, location, message, hsome, hne, -⟩
          simp [hsome, hne] at hlocation
        · rename_i location hlocation
          obtain ⟨hsome, hne⟩ := Option.filter_eq_some_iff.mp hlocation
          split
          · refine ensures_throw (classified_feedFetch (hanswered ?_) _)
            rintro ⟨-, -, hleft, -⟩
            omega
          · rename_i left
            refine ensures_bind ?_
            cases hresolve : FeedPlatform.resolve location url with
            | error message =>
              have hbroken : Broken options log
                  ⟨.request url (requestHeaders options), .ok response⟩ :=
                ⟨hmodified, hredirect, by omega, location, message, hsome, by
                  simpa using hne, hresolve⟩
              exact ensures_throw (classified_other _ hclean hbroken message)
            | ok target =>
              have hmoved : Clean options
                  (log ++ [⟨.request url (requestHeaders options), .ok response⟩]) := by
                refine hanswered ?_
                rintro ⟨-, -, -, location', message, hsome', -, hresolve'⟩
                obtain rfl := Option.some.inj (hsome.symm.trans hsome')
                rw [hresolve] at hresolve'
                cases hresolve'
              refine ensures_ret (ensures_bind (ensures_feedFetchError (fun next _ => ?_)
                fun error _ => classified_feedFetch hmoved error))
              refine hlater left rfl _ next hmoved ?_
              have hmore :
                requests (log ++ [⟨.request url (requestHeaders options), .ok response⟩]) =
                  requests log ++ [⟨url, .ok response⟩] := requests_snoc _
              rw [hmore, List.length_append, List.length_singleton]
              omega
      · rename_i hredirect
        exact finish_classified fuel response (hanswered fun hbroken => hredirect hbroken.2.1)

/-- **The loop**, from any of its heads. -/
theorem follow_classified (fuel remaining : ℕ) : ∀ (log : List FeedEvent) (url : Text),
    Clean options log → (requests log).length + remaining = options.maxRedirects →
    Ensures (Appends some) (Clean options) (Classified options)
      (follow fuel options remaining url) log
      fun _ => Clean options := by
  induction remaining with
  | zero => exact fun log url => follow_classified_round fuel 0 (by simp)
  | succ remaining ih =>
    refine fun log url => follow_classified_round fuel (remaining + 1) fun left hleft => ?_
    obtain rfl : remaining = left := Nat.succ.inj hleft
    exact ih

end Failures

/-! ### The job -/

/-- The job reads the target, is told of the failure, and records it. -/
def afterFailure (sourceId : Text) (source : Sources.SourceFetchTarget) (failure : FetchFailure)
    (message : Text) : List Sources.SourcesEvent :=
  [⟨.findFetchTarget sourceId, .ok (some source)⟩,
    ⟨.fetchFeed source.feedUrl source.etag source.lastModified, .error failure⟩,
    ⟨.recordFetchOutcome source.id ⟨none, none, some message⟩, .ok ()⟩]

/-- The failure is one that says whether to try again, and the job does as it says. -/
def Decided (failure : FetchFailure) : Prop :=
  ∃ error, failure = .feedFetch error ∧ ∀ sourceId source outcome,
    Run (Sources.process sourceId) (afterFailure sourceId source failure error.message) outcome →
      outcome = .threw (if error.retryable then .feedFetch error else .unrecoverable error.message)

theorem decided_feedFetch (error : FeedFetchError) : Decided (.feedFetch error) := by
  refine ⟨error, rfl, fun sourceId source outcome hrun => ?_⟩
  have hthrows : Run (Sources.process sourceId)
      (afterFailure sourceId source (.feedFetch error) error.message)
      (.threw (if (Sources.JobFailure.feedFetch error).permanent then .unrecoverable error.message
        else .feedFetch error)) :=
    .call _ _ _ _ _ (.call _ _ _ _ _ (.call _ _ _ _ _ (.throw _)))
  rw [← List.append_nil (afterFailure _ _ _ _)] at hrun
  rw [(run_ended hthrows hrun rfl).2]
  cases hretry : error.retryable <;> simp [Sources.JobFailure.permanent, hretry]

/-- **Failures.**  Whatever the servers answer, a fetch that is rejected is rejected with a
`FeedFetchError`, and the job goes by its class, exactly when no answer is broken. -/
theorem fetchFeed_failures [Host] [FeedPlatform] (fuel : ℕ) (options : FetchFeedOptions)
    {trace : List FeedEvent} {outcome : Outcome FetchFailure (Option FetchFeedResult)}
    (hrun : Run (fetchFeed fuel options) trace outcome) :
    (∀ failure, outcome = .threw failure → Decided failure) ↔ Clean options trace := by
  have hspec : Ensures (Appends some) (Clean options) (Classified options)
    (fetchFeed fuel options) []
      fun _ => Clean options := by
    refine ensures_bind (ensures_feedFetchError (fun url _ => ?_) fun error _ =>
      classified_feedFetch clean_nil error)
    exact follow_classified fuel _ [] url clean_nil (Nat.zero_add _)
  have hmeets := hspec trace outcome trace hrun (by simpa using steps_appends some [] trace)
  cases outcome with
  | returned result => exact iff_of_true (by simp) hmeets
  | interrupted => exact iff_of_true (by simp) hmeets
  | threw failure =>
    constructor
    · intro hdecided
      obtain ⟨error, rfl, -⟩ := hdecided failure rfl
      exact hmeets.mp ⟨error, rfl⟩
    · intro hclean failure' hthrew
      obtain rfl := Outcome.threw.inj hthrew
      obtain ⟨error, rfl⟩ := hmeets.mpr hclean
      exact decided_feedFetch error

/-- The answer to every request of a feed. -/
def answeredWith (response : Response) :
    List FeedEvent × Outcome FetchFailure (Option FetchFeedResult) ×
      (List Response × List (Option (List ℕ))) :=
  play serve (@fetchFeed asciiHost plainPlatform 3 (feedAt "https://one.test/feed"))
    ([response], [])

def gone : Response := ⟨410, none, none, none, none, none, false⟩

/-- The message of what was thrown, and whether it is a `FeedFetchError`. -/
def thrown : Outcome FetchFailure (Option FetchFeedResult) → Option (Bool × Text)
  | .threw (.feedFetch error) => some (true, error.message)
  | .threw (.other message) => some (false, message)
  | _ => none

theorem fetchFeed_failures_gone :
    (thrown (answeredWith gone).2.1).map Prod.fst = some true ∧
      ∀ failure, (answeredWith gone).2.1 = .threw failure → Decided failure := by
  refine ⟨by decide +kernel, (@fetchFeed_failures asciiHost plainPlatform 3 _ _ _
    (run_play serve _ ([gone], []))).mpr ?_⟩
  have hassert : @assertHttpUrl plainPlatform (feedAt "https://one.test/feed").url =
      .ok (lit "https://one.test/feed") := by decide +kernel
  have hlog : (answeredWith gone).1 = [] ++ [⟨.request (lit "https://one.test/feed")
      (requestHeaders (feedAt "https://one.test/feed")), .ok gone⟩] := by
    unfold answeredWith fetchFeed
    rw [hassert]
    show (play serve (@follow asciiHost plainPlatform 3 _ 5 _) _).1 = _
    unfold follow
    rfl
  have hclean := (@clean_snoc plainPlatform (feedAt "https://one.test/feed") []
    ⟨.request (lit "https://one.test/feed") (requestHeaders (feedAt "https://one.test/feed")),
      .ok gone⟩
    (@clean_nil plainPlatform _)).mpr fun hbroken => absurd hbroken.2.1.2 (by decide)
  exact hlog ▸ hclean

/-- A redirect to what is no URL: the error is not a `FeedFetchError`, and the job throws it
again. -/
theorem redirect_to_no_url : ∃ trace,
    Run (@fetchFeed asciiHost plainPlatform 3 (feedAt "https://one.test/feed")) trace
      (.threw (.other (lit "Invalid URL"))) ∧
    ∀ sourceId source, Run (Sources.process sourceId)
      (afterFailure sourceId source (.other (lit "Invalid URL")) (lit "Invalid URL"))
      (.threw (.other (lit "Invalid URL"))) := by
  refine ⟨(answeredWith (redirectTo "https://")).1, ?_, fun sourceId source =>
    .call _ _ _ _ _ (.call _ _ _ _ _ (.call _ _ _ _ _ (.throw _)))⟩
  have hrun :=
    run_play serve (@fetchFeed asciiHost plainPlatform 3 (feedAt "https://one.test/feed"))
    ([redirectTo "https://"], [])
  have hthrown : thrown (answeredWith (redirectTo "https://")).2.1 =
      some (false, lit "Invalid URL") := by decide +kernel
  have hother : (answeredWith (redirectTo "https://")).2.1 =
      .threw (.other (lit "Invalid URL")) := by
    unfold thrown at hthrown
    split at hthrown
    · simp at hthrown
    · rename_i message houtcome
      rw [houtcome, (Prod.mk.inj (Option.some.inj hthrown)).2]
    · cases hthrown
  exact hother ▸ hrun

end Newsdeck.Worker

import Newsdeck.Worker.FeedParser

/-!
# What becomes of the entries of a feed

* `feedOf`, `FeedFormat.entries` — a body that is a feed, and its entries: of an RSS feed, the items
  of all channels;
* `Accounts` — every entry, one after the other, has become a candidate or was skipped;
* `Readable` — the entry is not `null`, and no text that is taken from it refers to a character that
  does not exist;
* `feed_accounted_iff` — a feed is accounted for exactly when all of its entries are readable and
  stand in one channel;
* `feed_lost` — one entry that is not readable costs the whole feed, and so does a second channel.
-/

namespace Newsdeck.Worker

open Ecma Loop

inductive FeedFormat where
  | rss
  | atom
  | jsonFeed
  deriving DecidableEq, Repr

def FeedFormat.fields : FeedFormat → Json → Except FeedFailure RawEntryFields
  | rss => rssFields
  | atom => atomFields
  | jsonFeed => jsonFields

/-! ### The entries -/

/-- What stands under a name in each of the elements, one element after the other. -/
def childrenOf (elements : List Json) (name : Text) : List Json :=
  elements.flatMap fun element => toArray (optionalMember (some element) name)

/-- The entries of a feed.  An item outside a channel is none. -/
def FeedFormat.entries : FeedFormat → Json → List Json
  | rss, feed => childrenOf (childrenOf (toArray (some feed)) (lit "channel")) (lit "item")
  | atom, feed => childrenOf (toArray (some feed)) (lit "entry")
  | jsonFeed, feed => elements (optionalMember (some feed) (lit "items"))

/-- The element occurs more than once: the XML parser makes an array of it. -/
def Repeated (element : Option Json) : Prop := ∃ occurrences, element = some (.arr occurrences)

/-- No element that entries stand in occurs more than once. -/
def FeedFormat.Undivided : FeedFormat → Json → Prop
  | rss, feed => ¬Repeated (some feed) ∧ ¬Repeated (optionalMember (some feed) (lit "channel"))
  | atom, feed => ¬Repeated (some feed)
  | jsonFeed, _ => True

/-- Where `parseFeed` looks for the entries. -/
def FeedFormat.read : FeedFormat → Json → List Json
  | rss, feed => toArray (optionalMember (optionalMember (some feed) (lit "channel")) (lit "item"))
  | atom, feed => toArray (optionalMember (some feed) (lit "entry"))
  | jsonFeed, feed => elements (optionalMember (some feed) (lit "items"))

theorem childrenOf_toArray {element : Option Json} (h : ¬Repeated element) (name : Text) :
    childrenOf (toArray element) name = toArray (optionalMember element name) := by
  match element with
  | none => rfl
  | some .null => rfl
  | some (.arr occurrences) => exact absurd ⟨occurrences, rfl⟩ h
  | some (.obj _) => exact List.append_nil _
  | some (.bool _) => rfl
  | some (.num _) => rfl
  | some .infinite => rfl
  | some (.str _) => rfl

theorem optionalMember_repeated {element : Option Json} (h : Repeated element) (name : Text) :
    optionalMember element name = none := by
  obtain ⟨occurrences, rfl⟩ := h
  rfl

theorem read_eq_entries {format : FeedFormat} {feed : Json} (h : format.Undivided feed) :
    format.read feed = format.entries feed := by
  cases format with
  | rss => rw [FeedFormat.entries, childrenOf_toArray h.1, childrenOf_toArray h.2]; rfl
  | atom => rw [FeedFormat.entries, childrenOf_toArray h]; rfl
  | jsonFeed => rfl

/-- What occurs more than once is not looked into. -/
theorem read_eq_nil {format : FeedFormat} {feed : Json} (h : ¬format.Undivided feed) :
    format.read feed = [] := by
  cases format with
  | rss =>
    rw [FeedFormat.Undivided, not_and_or, not_not, not_not] at h
    rcases h with hroot | hchannel
    · rw [FeedFormat.read, optionalMember_repeated hroot]
      rfl
    · rw [FeedFormat.read, optionalMember_repeated hchannel]
      rfl
  | atom =>
    rw [FeedFormat.read, optionalMember_repeated (not_not.mp h)]
    rfl
  | jsonFeed => exact absurd trivial h

section Entries

variable [FeedLibraries]

/-- The format of a body that is a feed, and the feed. -/
def feedOf (body : Text) : Option (FeedFormat × Json) :=
  if (lit "\x7b").isPrefixOf (trim body) then
    match Json.parse (trim body) with
    | some (.obj feed) =>
        if (stringField (Json.get? feed (lit "version"))).any (Regex.str "jsonfeed.org").test then
          some (.jsonFeed, .obj feed)
        else none
    | _ => none
  else
    match FeedLibraries.parseXml body with
    | .error _ => none
    | .ok doc =>
        match (Json.get? doc (lit "rss")).filter truthy,
          (Json.get? doc (lit "feed")).filter truthy with
        | some rss, _ => some (.rss, rss)
        | none, some feed => some (.atom, feed)
        | none, none => none

omit [FeedLibraries] in
theorem members_of_truthy {value : Json} (h : truthy value = true) :
    ∃ record, members value = .ok record ∧
      ∀ name, Json.get? record name = optionalMember (some value) name := by
  cases value with
  | null => cases h
  | obj record => exact ⟨record, rfl, fun name => rfl⟩
  | bool b => exact ⟨[], rfl, fun name => rfl⟩
  | num q => exact ⟨[], rfl, fun name => rfl⟩
  | infinite => exact ⟨[], rfl, fun name => rfl⟩
  | str text => exact ⟨[], rfl, fun name => rfl⟩
  | arr values => exact ⟨[], rfl, fun name => rfl⟩

variable [Host] [WebUrl] [BuiltIns]

theorem parseRssItems_eq {rss : Json} (h : truthy rss = true) :
    parseRssItems rss = buildCandidates (FeedFormat.rss.read rss) rssFields := by
  obtain ⟨record, hrecord, hget⟩ := members_of_truthy h
  rw [parseRssItems, hrecord, FeedFormat.read, ← hget]
  rfl

theorem parseAtomEntries_eq {feed : Json} (h : truthy feed = true) :
    parseAtomEntries feed = buildCandidates (FeedFormat.atom.read feed) atomFields := by
  obtain ⟨record, hrecord, hget⟩ := members_of_truthy h
  rw [parseAtomEntries, hrecord, FeedFormat.read, ← hget]
  rfl

/-- A body that is no feed is refused; one that is a feed has its entries read in its format. -/
theorem parseFeed_cases (body : Text) :
    (feedOf body = none ∧ ∃ error, parseFeed body = .error (.feedParse error)) ∨
    ∃ format feed, feedOf body = some (format, feed) ∧
      parseFeed body = buildCandidates (format.read feed) format.fields := by
  unfold parseFeed feedOf
  dsimp only
  by_cases hjson : (lit "\x7b").isPrefixOf (trim body) = true
  · rw [if_pos hjson, if_pos hjson, parseJsonFeedBody]
    cases Json.parse (trim body) with
    | none => exact .inl ⟨rfl, _, rfl⟩
    | some doc =>
      cases doc with
      | obj feed =>
        by_cases hversion : (stringField (Json.get? feed (lit "version"))).any
            (Regex.str "jsonfeed.org").test = true
        · exact .inr ⟨.jsonFeed, _, if_pos hversion, if_pos hversion⟩
        · exact .inl ⟨if_neg hversion, _, if_neg hversion⟩
      | _ => exact .inl ⟨rfl, _, rfl⟩
  · rw [if_neg hjson, if_neg hjson, parseXmlFeedBody]
    cases FeedLibraries.parseXml body with
    | error message => exact .inl ⟨rfl, _, rfl⟩
    | ok doc =>
      dsimp only
      cases hrss : (Json.get? doc (lit "rss")).filter truthy with
      | some rss =>
        have htruthy := (Option.filter_eq_some_iff.mp hrss).2
        exact .inr ⟨.rss, _, rfl, parseRssItems_eq htruthy⟩
      | none =>
        cases hfeed : (Json.get? doc (lit "feed")).filter truthy with
        | some feed =>
          have htruthy := (Option.filter_eq_some_iff.mp hfeed).2
          exact .inr ⟨.atom, _, rfl, parseAtomEntries_eq htruthy⟩
        | none => exact .inl ⟨rfl, _, rfl⟩

/-! ### The loop over the entries -/

variable {T : Type} {extract : T → Except FeedFailure RawEntryFields}

/-- What the loop makes of an entry. -/
def judge (extract : T → Except FeedFailure RawEntryFields) (entry : T) :
    Except FeedFailure (Except SkippedEntryReason ArticleCandidate) :=
  extract entry >>= candidateOf

/-- Each of the entries, from an index on, has become the next candidate or was skipped at its
index. -/
inductive Accounts (extract : T → Except FeedFailure RawEntryFields) :
    ℕ → List T → List ArticleCandidate → List SkippedEntry → Prop
  | nil (index : ℕ) : Accounts extract index [] [] []
  | kept {index : ℕ} {entry : T} {entries : List T} {candidate : ArticleCandidate}
      {candidates : List ArticleCandidate} {skipped : List SkippedEntry}
      (judged : judge extract entry = .ok (.ok candidate))
      (rest : Accounts extract (index + 1) entries candidates skipped) :
      Accounts extract index (entry :: entries) (candidate :: candidates) skipped
  | skipped {index : ℕ} {entry : T} {entries : List T} {reason : SkippedEntryReason}
      {candidates : List ArticleCandidate} {skipped : List SkippedEntry}
      (judged : judge extract entry = .ok (.error reason))
      (rest : Accounts extract (index + 1) entries candidates skipped) :
      Accounts extract index (entry :: entries) candidates (⟨index, reason⟩ :: skipped)

theorem Accounts.judged {index : ℕ} {entries : List T} {candidates : List ArticleCandidate}
    {skipped : List SkippedEntry} (h : Accounts extract index entries candidates skipped) :
    ∀ entry ∈ entries, ∃ outcome, judge extract entry = .ok outcome := by
  induction h with
  | nil => simp
  | kept judged _ ih => exact List.forall_mem_cons.mpr ⟨⟨_, judged⟩, ih⟩
  | skipped judged _ ih => exact List.forall_mem_cons.mpr ⟨⟨_, judged⟩, ih⟩

theorem Accounts.length {index : ℕ} {entries : List T} {candidates : List ArticleCandidate}
    {skipped : List SkippedEntry} (h : Accounts extract index entries candidates skipped) :
    candidates.length + skipped.length = entries.length := by
  induction h with
  | nil => rfl
  | kept _ _ ih =>
    simp only [List.length_cons]
    omega
  | skipped _ _ ih =>
    simp only [List.length_cons]
    omega

/-- The loop accounts for all entries, or throws what the first of them throws. -/
theorem buildFrom_cases (entries : List T) : ∀ (index : ℕ) (result : ParseFeedResult),
    (∃ candidates skipped, Accounts extract index entries candidates skipped ∧
      buildFrom extract index entries result =
        .ok ⟨result.candidates ++ candidates, result.skipped ++ skipped⟩) ∨
    ∃ entry ∈ entries, ∃ failure, judge extract entry = .error failure ∧
      buildFrom extract index entries result = .error failure := by
  induction entries with
  | nil =>
    intro index result
    exact .inl ⟨[], [], .nil index, by simp [buildFrom]⟩
  | cons entry entries ih =>
    intro index result
    have hloop : buildFrom extract index (entry :: entries) result = judge extract entry >>= _ :=
      (buildFrom.eq_2 extract index result entry entries).trans (bind_assoc _ _ _).symm
    rw [hloop]
    cases hjudge : judge extract entry with
    | error failure => exact .inr ⟨entry, List.mem_cons_self, failure, hjudge, rfl⟩
    | ok outcome =>
      cases outcome with
      | error reason =>
        rcases ih (index + 1) { result with skipped := result.skipped ++ [⟨index, reason⟩] } with
          ⟨candidates, skipped, haccounts, hrest⟩ | ⟨other, hmem, failure, hfails, hrest⟩
        · refine .inl ⟨candidates, ⟨index, reason⟩ :: skipped, .skipped hjudge haccounts, ?_⟩
          rw [List.append_cons]
          exact hrest
        · exact .inr ⟨other, List.mem_cons_of_mem _ hmem, failure, hfails, hrest⟩
      | ok candidate =>
        rcases ih (index + 1) { result with candidates := result.candidates ++ [candidate] } with
          ⟨candidates, skipped, haccounts, hrest⟩ | ⟨other, hmem, failure, hfails, hrest⟩
        · refine .inl ⟨candidate :: candidates, skipped, .kept hjudge haccounts, ?_⟩
          rw [List.append_cons]
          exact hrest
        · exact .inr ⟨other, List.mem_cons_of_mem _ hmem, failure, hfails, hrest⟩

/-! ### Entries that can be read -/

/-- Each text that is decoded refers to characters that exist.  The title is decoded when the URL
can be used, the others when the title is not empty. -/
def DecodableFields (raw : RawEntryFields) : Prop :=
  usableUrl raw ≠ none → Decodable raw.title ∧
    (sanitizeText raw.title titleMaxLength ≠ .ok [] → Decodable raw.summary ∧ Decodable raw.author)

def Readable (format : FeedFormat) (entry : Json) : Prop :=
  entry ≠ .null ∧ ∀ raw, format.fields entry = .ok raw → DecodableFields raw

theorem candidateOf_cases (raw : RawEntryFields) :
    (∃ outcome, candidateOf raw = .ok outcome ∧ DecodableFields raw) ∨
    (candidateOf raw = .error .rangeError ∧ ¬ DecodableFields raw) := by
  unfold candidateOf DecodableFields
  cases hurl : usableUrl raw with
  | none => exact .inl ⟨_, rfl, fun h => absurd rfl h⟩
  | some urls =>
    obtain ⟨url, canonicalUrl⟩ := urls
    dsimp only
    rcases sanitizeText_cases raw.title titleMaxLength with ⟨title, htitle, hin⟩ | ⟨herror, hout⟩
    · rw [htitle]
      by_cases hempty : title.length = 0
      · have htitle' : title = [] := List.length_eq_zero_iff.mp hempty
        exact .inl ⟨.error .missingTitle, if_pos hempty, fun _ =>
          ⟨hin, fun h => absurd (htitle' ▸ rfl) h⟩⟩
      · have hsome : (Except.ok title : Except FeedFailure Text) ≠ .ok [] := by
          intro h
          cases h
          exact hempty rfl
        have hurl' : some (url, canonicalUrl) ≠ none := by simp
        rcases sanitizeText_cases raw.summary summaryMaxLength with
          ⟨summary, hsummary, hsummaryIn⟩ | ⟨herror, hsummaryOut⟩
        · rcases sanitizeText_cases raw.author titleMaxLength with
            ⟨author, hauthor, hauthorIn⟩ | ⟨herror, hauthorOut⟩
          · simp only [bind, Except.bind, if_neg hempty, hsummary, hauthor]
            exact .inl ⟨_, rfl, fun _ => ⟨hin, fun _ => ⟨hsummaryIn, hauthorIn⟩⟩⟩
          · refine .inr ⟨?_, fun h => hauthorOut ((h hurl').2 hsome).2⟩
            simp only [bind, Except.bind, if_neg hempty, hsummary, herror]
        · refine .inr ⟨?_, fun h => hsummaryOut ((h hurl').2 hsome).1⟩
          simp only [bind, Except.bind, if_neg hempty, herror]
    · rw [herror]
      exact .inr ⟨rfl, fun h => hout (h (by simp)).1⟩

omit [FeedLibraries] [Host] [WebUrl] [BuiltIns] in
theorem fields_cases (format : FeedFormat) (entry : Json) :
    (∃ raw, format.fields entry = .ok raw ∧ entry ≠ .null) ∨
    (format.fields entry = .error .typeError ∧ entry = .null) := by
  have hmembers : (∃ record, members entry = .ok record ∧ entry ≠ .null) ∨
      (members entry = .error .typeError ∧ entry = .null) := by
    cases entry <;> simp [members]
  rcases hmembers with ⟨record, hrecord, hentry⟩ | ⟨herror, hentry⟩
  · refine .inl ?_
    cases format with
    | rss => exact ⟨_, by rw [FeedFormat.fields, rssFields, hrecord]; rfl, hentry⟩
    | atom => exact ⟨_, by rw [FeedFormat.fields, atomFields, hrecord]; rfl, hentry⟩
    | jsonFeed => exact ⟨_, by rw [FeedFormat.fields, jsonFields, hrecord]; rfl, hentry⟩
  · refine .inr ⟨?_, hentry⟩
    cases format with
    | rss => rw [FeedFormat.fields, rssFields, herror]; rfl
    | atom => rw [FeedFormat.fields, atomFields, herror]; rfl
    | jsonFeed => rw [FeedFormat.fields, jsonFields, herror]; rfl

/-- An entry is judged, or what it throws is no error of the feed. -/
theorem judge_cases (format : FeedFormat) (entry : Json) :
    (∃ outcome, judge format.fields entry = .ok outcome ∧ Readable format entry) ∨
    ∃ failure, judge format.fields entry = .error failure ∧ (∀ error, failure ≠ .feedParse error) ∧
      ¬ Readable format entry := by
  unfold judge Readable
  rcases fields_cases format entry with ⟨raw, hraw, hentry⟩ | ⟨herror, hentry⟩
  · rw [hraw]
    rcases candidateOf_cases raw with ⟨outcome, houtcome, hdecodable⟩ | ⟨herror, hnot⟩
    · refine .inl ⟨outcome, houtcome, hentry, ?_⟩
      rintro other ⟨⟩
      exact hdecodable
    · exact .inr ⟨.rangeError, herror, by simp, fun h => hnot (h.2 raw rfl)⟩
  · rw [herror]
    exact .inr ⟨.typeError, rfl, by simp, fun h => h.1 hentry⟩

/-! ### The feed -/

/-- The call throws an error of the feed, or returns a result with every entry of the feed. -/
def Accounted (body : Text) : Prop :=
  (∃ error, parseFeed body = .error (.feedParse error)) ∨
  ∃ format feed result, feedOf body = some (format, feed) ∧ parseFeed body = .ok result ∧
    Accounts format.fields 0 (format.entries feed) result.candidates result.skipped

/-- The entries that are read are accounted for, or one of them throws what is no error of the
feed. -/
theorem buildCandidates_cases (format : FeedFormat) (entries : List Json) :
    (∃ result, buildCandidates entries format.fields = .ok result ∧
      Accounts format.fields 0 entries result.candidates result.skipped ∧
      ∀ entry ∈ entries, Readable format entry) ∨
    ∃ failure, buildCandidates entries format.fields = .error failure ∧
      (∀ error, failure ≠ .feedParse error) ∧ ∃ entry ∈ entries, ¬Readable format entry := by
  rcases @buildFrom_cases _ _ _ _ _ format.fields entries 0 ⟨[], []⟩ with
    ⟨candidates, skipped, haccounts, hbuilt⟩ | ⟨entry, hentry, failure, hfails, hbuilt⟩
  · refine .inl ⟨_, hbuilt, haccounts, fun entry hentry => ?_⟩
    obtain ⟨outcome, houtcome⟩ := haccounts.judged entry hentry
    rcases judge_cases format entry with ⟨-, -, hin⟩ | ⟨failure, hfails, -⟩
    · exact hin
    · rw [houtcome] at hfails
      cases hfails
  · rcases judge_cases format entry with ⟨outcome, houtcome, -⟩ | ⟨failure', hfails', hother, hnot⟩
    · rw [houtcome] at hfails
      cases hfails
    · rw [hfails] at hfails'
      cases hfails'
      exact .inr ⟨failure, hbuilt, hother, entry, hentry, hnot⟩

/-- **Every entry, exactly once**, exactly in a feed whose entries can all be read and, if it has
any, stand in one channel. -/
theorem feed_accounted_iff (body : Text) : Accounted body ↔
    ∀ format feed, feedOf body = some (format, feed) →
      (format.entries feed ≠ [] → format.Undivided feed) ∧
        ∀ entry ∈ format.entries feed, Readable format entry := by
  rcases parseFeed_cases body with ⟨hnone, error, herror⟩ | ⟨format, feed, hfeed, hparse⟩
  · rw [hnone]
    exact ⟨fun _ => by simp, fun _ => .inl ⟨error, herror⟩⟩
  · have honly : (∀ format' feed', feedOf body = some (format', feed') →
        (format'.entries feed' ≠ [] → format'.Undivided feed') ∧
          ∀ entry ∈ format'.entries feed', Readable format' entry) ↔
        (format.entries feed ≠ [] → format.Undivided feed) ∧
          ∀ entry ∈ format.entries feed, Readable format entry := by
      rw [hfeed]
      refine ⟨fun h => h format feed rfl, ?_⟩
      rintro h _ _ ⟨⟩
      exact h
    rw [honly]
    by_cases hundivided : format.Undivided feed
    · rw [read_eq_entries hundivided] at hparse
      rcases buildCandidates_cases format (format.entries feed) with
        ⟨result, hbuilt, haccounts, hreadable⟩ | ⟨failure, hbuilt, hother, entry, hentry, hnot⟩
      · exact ⟨fun _ => ⟨fun _ => hundivided, hreadable⟩,
          fun _ => .inr ⟨format, feed, result, hfeed, hparse.trans hbuilt, haccounts⟩⟩
      · -- What the entry throws is what the call throws.
        have hthrown := hparse.trans hbuilt
        refine ⟨?_, fun h => absurd (h.2 entry hentry) hnot⟩
        rintro (⟨error, herror⟩ | ⟨_, _, result, -, hresult, -⟩)
        · rw [hthrown] at herror
          cases herror
          exact absurd rfl (hother error)
        · rw [hthrown] at hresult
          cases hresult
    · -- Nothing is read, so the feed is accounted for when it has no entry.
      rw [read_eq_nil hundivided] at hparse
      have hempty : parseFeed body = .ok ⟨[], []⟩ := hparse
      constructor
      · rintro (⟨error, herror⟩ | ⟨_, _, result, hfound, hresult, haccounts⟩)
        · rw [hempty] at herror
          cases herror
        · rw [hfeed] at hfound
          cases hfound
          rw [hempty] at hresult
          cases hresult
          have hnone : format.entries feed = [] := List.length_eq_zero_iff.mp haccounts.length.symm
          rw [hnone]
          exact ⟨fun hne => absurd rfl hne, by simp⟩
      · rintro ⟨honce, -⟩
        have hnone : format.entries feed = [] := by
          by_contra hne
          exact hundivided (honce hne)
        refine .inr ⟨format, feed, _, hfeed, hempty, ?_⟩
        rw [hnone]
        exact .nil 0

end Entries

/-! ### Feeds that are lost -/

/-- A platform that knows one URL and no XML. -/
@[reducible] def oneUrl : WebUrl where
  parse raw :=
    if raw = lit "https://one.test/" then
      some ⟨lit "https", [], [], lit "one.test", none, lit "/", none, none⟩
    else none
  setHostname := fun url hostname => { url with hostname := hostname }
  parseForm := fun _ => []
  serializeForm := fun _ => []

/-- An item with a link and a title. -/
def itemXml : Text := lit "<item><link>https://one.test/</link><title>One</title></item>"

def itemTree : Json :=
  .obj [(lit "item", .arr [.obj [
    (lit "link", .str (lit "https://one.test/")), (lit "title", .str (lit "One"))]])]

/-- Two channels, each with an item. -/
def twoChannels : Text :=
  lit "<rss><channel>" ++ itemXml ++ lit "</channel><channel>" ++ itemXml ++ lit "</channel></rss>"

/-- A parser that knows this one document. -/
@[reducible] def twoChannelsXml : FeedLibraries where
  parseXml body :=
    if body = twoChannels then
      .ok [(lit "rss", .obj [(lit "channel", .arr [itemTree, itemTree])])]
    else .error (lit "Start tag expected.")
  syntaxError := fun _ => []
  sha256 := id
  dateTime := fun _ => none

def feedWith (items : Text) : Text :=
  lit "\x7b\"version\":\"https://jsonfeed.org/version/1.1\",\"items\":[" ++ items ++ lit "]\x7d"

/-- An entry that is `null`, after one that is not. -/
def nullEntry : Text :=
  feedWith (lit "\x7b\"url\":\"https://one.test/\",\"title\":\"One\"\x7d,null")

/-- A title with a reference above `0x10FFFF`. -/
def noCharacter : Text :=
  feedWith (lit "\x7b\"url\":\"https://one.test/\",\"title\":\"&#1114112;\"\x7d")

/-- None of the feeds is refused, and none of their entries is returned. -/
theorem feed_lost :
    ¬ @Accounted twoChannelsXml asciiHost oneUrl ⟨id⟩ nullEntry ∧
    ¬ @Accounted twoChannelsXml asciiHost oneUrl ⟨id⟩ noCharacter ∧
    ¬ @Accounted twoChannelsXml asciiHost oneUrl ⟨id⟩ twoChannels := by
  have hnull : @parseFeed twoChannelsXml asciiHost oneUrl ⟨id⟩ nullEntry = .error .typeError := by
    decide +kernel
  have hrange : @parseFeed twoChannelsXml asciiHost oneUrl ⟨id⟩ noCharacter =
      .error .rangeError := by
    decide +kernel
  have hchannels : @parseFeed twoChannelsXml asciiHost oneUrl ⟨id⟩ twoChannels = .ok ⟨[], []⟩ := by
    decide +kernel
  refine ⟨?_, ?_, ?_⟩
  · rintro (⟨error, herror⟩ | ⟨_, _, result, -, hresult, -⟩)
    · rw [hnull] at herror
      cases herror
    · rw [hnull] at hresult
      cases hresult
  · rintro (⟨error, herror⟩ | ⟨_, _, result, -, hresult, -⟩)
    · rw [hrange] at herror
      cases herror
    · rw [hrange] at hresult
      cases hresult
  · rintro (⟨error, herror⟩ | ⟨format, feed, result, hfeed, hresult, haccounts⟩)
    · rw [hchannels] at herror
      cases herror
    · have hfound : @feedOf twoChannelsXml twoChannels =
          some (.rss, .obj [(lit "channel", .arr [itemTree, itemTree])]) := by
        have hxml : ¬(lit "\x7b").isPrefixOf (trim twoChannels) = true := by decide +kernel
        have hparse : twoChannelsXml.parseXml twoChannels =
            .ok [(lit "rss", .obj [(lit "channel", .arr [itemTree, itemTree])])] := if_pos rfl
        unfold feedOf
        rw [if_neg hxml, hparse]
        rfl
      rw [hfound] at hfeed
      cases hfeed
      rw [hchannels] at hresult
      cases hresult
      have hlength := @Accounts.length twoChannelsXml asciiHost oneUrl ⟨id⟩ _ _ _ _ _ _ haccounts
      exact absurd hlength (by decide)

end Newsdeck.Worker

import Newsdeck.Ecma.FormEncoding
import Newsdeck.Worker.CanonicalUrl

/-!
# Canonical URLs and the parameters of trackers

Deleting a parameter writes the whole query anew, in the encoding of forms; a query from which
nothing is deleted stays as it was.

* `isTrackingParam_of_tracksBy` — `fbclid`, `gclid` and what begins with `utm_` are trackers, in any
  case;
* `Standard` — what is relied on of the platform's URLs;
* `dropTracking_eq` — the query after the loop over the keys;
* `canonicalizeUrl_again` — the canonical URL of a canonical URL is itself;
* `canonicalizeUrl_trackers` — a tracking parameter makes no difference exactly when the query
  without it is in the encoding of forms already, or has another one;
* `spaced_query` — a query with `%20` in it.
-/

namespace Newsdeck.Worker

open Ecma

namespace Url

def IsHttp (url : Url) : Prop := url.protocol = lit "http:" ∨ url.protocol = lit "https:"

def defaultPort (url : Url) : ℕ := if url.protocol = lit "https:" then 443 else 80

end Url

/-! ### The names of trackers -/

/-- The ASCII letters in lower case. -/
def lowered (text : Text) : Text := @Host.toLowerCase asciiHost text

theorem ascii_of_lowered {text : Text} (h : ∀ c ∈ lowered text, c < 128) : ∀ c ∈ text, c < 128 := by
  intro c hc
  have hlow := h _ (List.mem_map_of_mem hc)
  split at hlow <;> omega

section Names

variable [Host]

/-- What `toLowerCase` does to ASCII letters, whatever stands behind them. -/
structure LowersAscii : Prop where
  all : ∀ text, (∀ c ∈ text, c < 128) → Host.toLowerCase text = lowered text
  front : ∀ head rest, (∀ c ∈ head, c < 128) → lowered head <+: Host.toLowerCase (head ++ rest)

/-- The name is one of the two, or begins with `utm_`, its letters in either case. -/
inductive TracksBy : Text → Prop
  | listed {key} (h : lowered key ∈ trackingParams) : TracksBy key
  | utm {head rest} (h : lowered head = trackingParamPrefix) : TracksBy (head ++ rest)

theorem isTrackingParam_of_tracksBy (h : LowersAscii) {key : Text} (hkey : TracksBy key) :
    isTrackingParam key = true := by
  have hlisted : ∀ name ∈ trackingParams, ∀ c ∈ name, c < 128 := by decide
  have hprefix : ∀ c ∈ trackingParamPrefix, c < 128 := by decide
  cases hkey with
  | listed hmem =>
    have hlower : Host.toLowerCase key = lowered key :=
      h.all key (ascii_of_lowered (hlisted _ hmem))
    simp [isTrackingParam, hlower, hmem]
  | @utm head rest hhead =>
    have hfront := h.front head rest (ascii_of_lowered (hhead ▸ hprefix))
    rw [hhead] at hfront
    simp [isTrackingParam, List.isPrefixOf_iff_prefix.mpr hfront]

end Names

theorem asciiHost_lowersAscii : @LowersAscii asciiHost :=
  @LowersAscii.mk asciiHost (fun _ _ => rfl) fun _ rest _ => ⟨lowered rest, List.map_append.symm⟩

section Canonical

variable [Host] [WebUrl]

def params (url : Url) : List (Text × Text) := WebUrl.parseForm (url.query.getD [])

/-- The URLs of the platform are those of the standard. -/
structure Standard : Prop where
  /-- The host of a parsed URL is in lower case, and setting it again changes nothing. -/
  hostname : ∀ {raw url}, WebUrl.parse raw = some url → url.IsHttp →
    WebUrl.setHostname url (Host.toLowerCase url.hostname) = url
  /-- A port the scheme implies is dropped by the parser. -/
  port : ∀ {raw url}, WebUrl.parse raw = some url → url.IsHttp → url.port ≠ some url.defaultPort
  /-- A URL is read as it was written, with the query it has, with none, or with a rewritten one. -/
  reparse : ∀ {raw url}, WebUrl.parse raw = some url → url.IsHttp → ∀ query,
    (query = url.query ∨ query = none ∨ ∃ kept, kept.Sublist (params url) ∧
      query = some (WebUrl.serializeForm kept)) →
    WebUrl.parse { url with query := query, fragment := none }.toText =
      some { url with query := query, fragment := none }
  /-- Parameters that were read are read again as they are written. -/
  again : ∀ {raw url}, WebUrl.parse raw = some url → ∀ kept, kept.Sublist (params url) →
    WebUrl.parseForm (WebUrl.serializeForm kept) = kept
  parse_nil : WebUrl.parseForm [] = []
  serialize_nil : WebUrl.serializeForm [] = []
  /-- Parameters are separated by ampersands. -/
  parse_append : ∀ a b, WebUrl.parseForm (a ++ 38 :: b) = WebUrl.parseForm a ++ WebUrl.parseForm b

/-- The query that the setter of the parameters leaves. -/
def writtenQuery (params : List (Text × Text)) : Option Text :=
  if WebUrl.serializeForm params = [] then none else some (WebUrl.serializeForm params)

def HasTracker (params : List (Text × Text)) : Prop :=
  ∃ param ∈ params, isTrackingParam param.1 = true

def withoutTrackers (params : List (Text × Text)) : List (Text × Text) :=
  params.filter fun param => !isTrackingParam param.1

/-! ### The loop over the keys -/

/-- The body of the loop. -/
def visitKey (state : Url × List (Text × Text)) (key : Text) : Url × List (Text × Text) :=
  if isTrackingParam key then deleteParam key state else state

/-- What deleting the tracking parameters among the keys leaves. -/
def keptBy (keys : List Text) (params : List (Text × Text)) : List (Text × Text) :=
  params.filter fun param => !(param.1 ∈ keys && isTrackingParam param.1)

theorem visitKeys_none {keys : List Text} (h : ∀ key ∈ keys, isTrackingParam key ≠ true)
    (state : Url × List (Text × Text)) : keys.foldl visitKey state = state := by
  induction keys with
  | nil => rfl
  | cons key keys ih =>
    rw [List.foldl_cons, visitKey, if_neg (h key List.mem_cons_self),
      ih fun k hk => h k (List.mem_cons_of_mem key hk)]

omit [WebUrl] in
theorem keptBy_cons {key : Text} (hkey : isTrackingParam key = true) (keys : List Text)
    (params : List (Text × Text)) :
    keptBy keys (params.filter fun param => param.1 ≠ key) = keptBy (key :: keys) params := by
  unfold keptBy
  rw [List.filter_filter]
  refine List.filter_congr fun param _ => ?_
  by_cases hsame : param.1 = key
  · simp [hsame, hkey]
  · simp [hsame]

theorem visitKeys_some (keys : List Text) : ∀ state : Url × List (Text × Text),
    (∃ key ∈ keys, isTrackingParam key = true) → keys.foldl visitKey state =
      ({ state.1 with query := writtenQuery (keptBy keys state.2) }, keptBy keys state.2) := by
  induction keys with
  | nil => simp
  | cons key keys ih =>
    intro state h
    rw [List.foldl_cons, visitKey]
    by_cases hkey : isTrackingParam key = true
    · rw [if_pos hkey]
      by_cases hmore : ∃ k ∈ keys, isTrackingParam k = true
      · rw [ih _ hmore, ← keptBy_cons hkey]
        rfl
      · -- The last key that is deleted.
        have hnone : ∀ k ∈ keys, isTrackingParam k ≠ true := fun k hk ht => hmore ⟨k, hk, ht⟩
        have hkept : keptBy keys (state.2.filter fun param => param.1 ≠ key) =
            state.2.filter fun param => param.1 ≠ key := by
          refine List.filter_eq_self.mpr fun param _ => ?_
          by_cases hin : param.1 ∈ keys
          · simp [Bool.eq_false_iff.mpr (hnone _ hin)]
          · simp [hin]
        rw [visitKeys_none hnone, ← keptBy_cons hkey, hkept]
        rfl
    · have hmore : ∃ k ∈ keys, isTrackingParam k = true := by simpa [hkey] using h
      have hkept : keptBy (key :: keys) state.2 = keptBy keys state.2 := by
        refine List.filter_congr fun param _ => ?_
        by_cases hsame : param.1 = key
        · simp [hsame, hkey]
        · simp [hsame]
      rw [if_neg hkey, ih state hmore, hkept]

/-- **The loop.**  The query is written anew when there is something to delete. -/
theorem dropTracking_of_tracker {url : Url} (h : HasTracker (params url)) :
    dropTracking url = { url with query := writtenQuery (withoutTrackers (params url)) } := by
  have hkeys : ∃ key ∈ (params url).map Prod.fst, isTrackingParam key = true := by
    obtain ⟨param, hparam, htracker⟩ := h
    exact ⟨param.1, List.mem_map_of_mem hparam, htracker⟩
  have hkept : keptBy ((params url).map Prod.fst) (params url) = withoutTrackers (params url) := by
    refine List.filter_congr fun param hparam => ?_
    rw [decide_eq_true (List.mem_map_of_mem hparam), Bool.true_and]
  show (((params url).map Prod.fst).foldl visitKey (url, params url)).1 = _
  rw [visitKeys_some _ _ hkeys, hkept]

theorem dropTracking_of_none {url : Url} (h : ¬ HasTracker (params url)) :
    dropTracking url = url := by
  have hkeys : ∀ key ∈ (params url).map Prod.fst, isTrackingParam key ≠ true := by
    intro key hkey htracker
    obtain ⟨param, hparam, rfl⟩ := List.mem_map.mp hkey
    exact h ⟨param, hparam, htracker⟩
  show (((params url).map Prod.fst).foldl visitKey (url, params url)).1 = _
  rw [visitKeys_none hkeys]

/-! ### Canonical URLs -/

/-- The query of the canonical URL. -/
def canonicalQuery (url : Url) : Option Text := (dropTracking url).query

variable {raw : Text} {url : Url}

omit [WebUrl] in
theorem withoutTrackers_of_none {ps : List (Text × Text)} (h : ¬ HasTracker ps) :
    withoutTrackers ps = ps :=
  List.filter_eq_self.mpr fun param hparam => by
    simpa using fun htracker => h ⟨param, hparam, htracker⟩

omit [WebUrl] in
theorem not_hasTracker_withoutTrackers (ps : List (Text × Text)) :
    ¬ HasTracker (withoutTrackers ps) := by
  rintro ⟨param, hparam, htracker⟩
  simp [withoutTrackers, htracker] at hparam

theorem canonicalQuery_cases (url : Url) : canonicalQuery url = url.query ∧
    ¬ HasTracker (params url) ∨
    canonicalQuery url = writtenQuery (withoutTrackers (params url)) ∧ HasTracker (params url) := by
  unfold canonicalQuery
  by_cases htracker : HasTracker (params url)
  · rw [dropTracking_of_tracker htracker]
    exact .inr ⟨rfl, htracker⟩
  · rw [dropTracking_of_none htracker]
    exact .inl ⟨rfl, htracker⟩

/-- Of a parsed URL, only the fragment and the query change. -/
theorem canonicalizeUrl_eq (h : Standard) (hparse : WebUrl.parse raw = some url)
    (hhttp : url.IsHttp) :
    canonicalizeUrl raw =
      some { url with query := canonicalQuery url, fragment := none }.toText := by
  have hscheme : ¬ (url.protocol ≠ lit "http:" ∧ url.protocol ≠ lit "https:") :=
    fun hnot => hhttp.elim hnot.1 hnot.2
  have hport : ({ url with fragment := none } : Url).port ≠
      some (if ({ url with fragment := none } : Url).protocol = lit "https:" then 443 else 80) := by
    have hport := h.port hparse hhttp
    exact hport
  have hdrop : dropTracking { url with fragment := none } =
      { url with query := canonicalQuery url, fragment := none } := by
    have hparams : params { url with fragment := none } = params url := rfl
    rcases canonicalQuery_cases url with ⟨hquery, hnone⟩ | ⟨hquery, hsome⟩
    · rw [dropTracking_of_none (hparams ▸ hnone), hquery]
    · rw [dropTracking_of_tracker (hparams ▸ hsome), hquery, hparams]
  unfold canonicalizeUrl
  rw [hparse]
  simp only [if_neg hscheme, h.hostname hparse hhttp]
  rw [if_neg hport, hdrop]

/-- **Again.**  The canonical URL of a canonical URL is itself. -/
theorem canonicalizeUrl_again (h : Standard) {canonical : Text}
    (hcanonical : canonicalizeUrl raw = some canonical) :
    canonicalizeUrl canonical = some canonical := by
  cases hparse : WebUrl.parse raw with
  | none => simp [canonicalizeUrl, hparse] at hcanonical
  | some url =>
    by_cases hhttp : url.IsHttp
    · rw [canonicalizeUrl_eq h hparse hhttp] at hcanonical
      obtain rfl := Option.some.inj hcanonical
      -- The URL is read as it was written, and has no tracking parameters any more.
      have hread : WebUrl.parse { url with query := canonicalQuery url, fragment := none }.toText =
            some { url with query := canonicalQuery url, fragment := none } ∧
          ¬ HasTracker (params { url with query := canonicalQuery url, fragment := none }) := by
        have hkept : (withoutTrackers (params url)).Sublist (params url) := List.filter_sublist
        rcases canonicalQuery_cases url with ⟨hquery, hnone⟩ | ⟨hquery, -⟩
        · rw [hquery]
          exact ⟨h.reparse hparse hhttp _ (.inl rfl), hnone⟩
        · rw [hquery, writtenQuery]
          split
          · refine ⟨h.reparse hparse hhttp _ (.inr (.inl rfl)), ?_⟩
            show ¬ HasTracker (WebUrl.parseForm [])
            rw [h.parse_nil]
            simp [HasTracker]
          · refine ⟨h.reparse hparse hhttp _ (.inr (.inr ⟨_, hkept, rfl⟩)), ?_⟩
            show ¬ HasTracker (WebUrl.parseForm (WebUrl.serializeForm _))
            rw [h.again hparse _ hkept]
            exact not_hasTracker_withoutTrackers _
      rw [canonicalizeUrl_eq h hread.1 hhttp]
      rcases canonicalQuery_cases { url with query := canonicalQuery url, fragment := none } with
        ⟨hquery, -⟩ | ⟨-, hsome⟩
      · rw [hquery]
      · exact absurd hsome hread.2
    · have hscheme : url.protocol ≠ lit "http:" ∧ url.protocol ≠ lit "https:" := not_or.mp hhttp
      simp [canonicalizeUrl, hparse, hscheme] at hcanonical

/-! ### A parameter more -/

/-- A piece of a query that is one parameter, and its name is a tracker's. -/
def IsTracker (piece : Text) : Prop :=
  ∃ name value, WebUrl.parseForm piece = [(name, value)] ∧ isTrackingParam name = true

/-- The piece is inserted in the query, somewhere between the others. -/
inductive Inserted (piece : Text) : Option Text → Text → Prop
  | alone : Inserted piece none piece
  | empty : Inserted piece (some []) piece
  | first (query : Text) : Inserted piece (some query) (piece ++ 38 :: query)
  | last (query : Text) : Inserted piece (some query) (query ++ 38 :: piece)
  | between (before after : Text) :
      Inserted piece (some (before ++ 38 :: after)) (before ++ 38 :: (piece ++ 38 :: after))

/-- The query is as it would be written anew, or is written anew in any case. -/
def Written (query : Option Text) : Prop :=
  HasTracker (WebUrl.parseForm (query.getD [])) ∨ query = none ∨
    ∃ text, query = some text ∧ text ≠ [] ∧ WebUrl.serializeForm (WebUrl.parseForm text) = text

theorem inserted_params (h : Standard) {piece query' : Text} {query : Option Text}
    (hpiece : IsTracker piece) (hinserted : Inserted piece query query') :
    HasTracker (WebUrl.parseForm query') ∧ withoutTrackers (WebUrl.parseForm query') =
      withoutTrackers (WebUrl.parseForm (query.getD [])) := by
  obtain ⟨name, value, hparsed, htracker⟩ := hpiece
  have hone : ∀ before after : List (Text × Text), HasTracker (before ++ (name, value) :: after) ∧
      withoutTrackers (before ++ (name, value) :: after) = withoutTrackers (before ++ after) :=
    fun before after => ⟨⟨(name, value), by simp, htracker⟩, by simp [withoutTrackers, htracker]⟩
  cases hinserted with
  | alone => simpa [h.parse_nil, hparsed] using hone [] []
  | empty => simpa [h.parse_nil, hparsed] using hone [] []
  | first text => simpa [h.parse_append, hparsed] using hone [] (WebUrl.parseForm text)
  | last text => simpa [h.parse_append, hparsed] using hone (WebUrl.parseForm text) []
  | between before after =>
    simpa [h.parse_append, hparsed] using hone (WebUrl.parseForm before) (WebUrl.parseForm after)

omit [Host] [WebUrl] in
/-- The text of a URL without a fragment determines its query. -/
theorem toText_query_inj {query query' : Option Text} :
    ({ url with query := query, fragment := none } : Url).toText =
      ({ url with query := query', fragment := none } : Url).toText ↔ query = query' := by
  refine ⟨fun h => ?_, fun h => by rw [h]⟩
  simp only [Url.toText, Url.credentials, Option.elim_none, List.append_nil] at h
  have hquery := List.append_cancel_left h
  cases query with
  | none =>
    cases query' with
    | none => rfl
    | some text' => simp [lit] at hquery
  | some text =>
    cases query' with
    | none => simp [lit] at hquery
    | some text' => simpa [lit] using hquery

theorem writtenQuery_eq_iff (h : Standard) (query : Option Text) :
    writtenQuery (WebUrl.parseForm (query.getD [])) = query ↔ query = none ∨
      ∃ text, query = some text ∧ text ≠ [] ∧
        WebUrl.serializeForm (WebUrl.parseForm text) = text := by
  unfold writtenQuery
  cases query with
  | none => simp [h.parse_nil, h.serialize_nil]
  | some text =>
    by_cases hempty : WebUrl.serializeForm (WebUrl.parseForm text) = []
    · simp only [Option.getD_some, hempty, if_true]
      constructor
      · rintro ⟨⟩
      · rintro (⟨⟨⟩⟩ | ⟨t, ht, hne, hsame⟩)
        obtain rfl := Option.some.inj ht
        exact absurd (hsame.symm.trans hempty) hne
    · simp only [Option.getD_some, if_neg hempty, Option.some.injEq]
      constructor
      · intro hsame
        exact .inr ⟨text, rfl, fun hnil => hempty (hsame.trans hnil), hsame⟩
      · rintro (⟨⟨⟩⟩ | ⟨t, rfl, -, hsame⟩)
        exact hsame

/-- **Trackers.**  The canonical URL of a canonical URL is itself.  A tracking parameter that is
inserted in the query makes no difference exactly when the query without it is absent, is what is
written anew for its parameters, or has a tracking parameter already. -/
theorem canonicalizeUrl_trackers (h : Standard) :
    (∀ raw canonical, canonicalizeUrl raw = some canonical →
      canonicalizeUrl canonical = some canonical) ∧
    ∀ raw raw' url piece query', WebUrl.parse raw = some url → url.IsHttp → IsTracker piece →
      Inserted piece url.query query' → WebUrl.parse raw' = some { url with query := some query' } →
      (canonicalizeUrl raw' = canonicalizeUrl raw ↔ Written url.query) := by
  refine ⟨fun raw canonical => canonicalizeUrl_again h, ?_⟩
  intro raw raw' url piece query' hparse hhttp hpiece hinserted hparse'
  obtain ⟨htracker, hkept⟩ := inserted_params h hpiece hinserted
  have htracker' : HasTracker (params { url with query := some query' }) := htracker
  have hquery' : canonicalQuery { url with query := some query' } =
      writtenQuery (withoutTrackers (params url)) := by
    rw [canonicalQuery, dropTracking_of_tracker htracker']
    exact congrArg writtenQuery hkept
  rw [canonicalizeUrl_eq h hparse hhttp, canonicalizeUrl_eq h hparse' hhttp, hquery',
    Option.some.injEq]
  refine toText_query_inj.trans ?_
  unfold Written
  rcases canonicalQuery_cases url with ⟨hquery, hnone⟩ | ⟨hquery, hsome⟩
  · rw [hquery, withoutTrackers_of_none hnone]
    refine (writtenQuery_eq_iff h url.query).trans ?_
    exact ⟨.inr, fun hwritten => hwritten.resolve_left hnone⟩
  · rw [hquery]
    exact iff_of_true rfl (.inl hsome)

end Canonical

/-! ### One site -/

/-- The units a query may have as they are. -/
def isQueryUnit (c : ℕ) : Bool := 33 ≤ c && c ≤ 126 && c ∉ [34, 35, 39, 60, 62]

def site (query : Option Text) : Url :=
  ⟨lit "https", [], [], lit "one.test", none, lit "/", query, none⟩

def readSite (raw : Text) : Option Url :=
  if raw = (site none).toText then some (site none)
  else if (site (some [])).toText.isPrefixOf raw then
    let query := raw.drop (site (some [])).toText.length
    if query.all isQueryUnit then some (site (some query)) else none
  else none

/-- A platform that knows the URLs of one site, without a fragment and with queries of ASCII. -/
@[reducible] def oneSite : WebUrl where
  parse := readSite
  setHostname := fun url hostname => { url with hostname := hostname }
  parseForm := FormEncoding.parse
  serializeForm := FormEncoding.serialize

section Site

attribute [local instance] asciiHost oneSite

theorem site_toText (text : Text) : (site (some text)).toText =
    (site (some [])).toText ++ text := by
  simp [Url.toText, Url.credentials, site, lit]

theorem readSite_some {raw : Text} {url : Url} (h : readSite raw = some url) :
    ∃ query : Option Text, url = site query ∧ ∀ text, query = some text →
      text.all isQueryUnit = true := by
  unfold readSite at h
  dsimp only at h
  split at h
  · exact ⟨none, (Option.some.inj h).symm, by simp⟩
  · split at h
    · split at h
      · rename_i hunits
        exact ⟨_, (Option.some.inj h).symm, fun text htext => Option.some.inj htext ▸ hunits⟩
      · cases h
    · cases h

theorem readSite_toText (query : Option Text)
    (h : ∀ text, query = some text → text.all isQueryUnit = true) :
    readSite (site query).toText = some (site query) := by
  unfold readSite
  cases query with
  | none => exact if_pos rfl
  | some text =>
    have hne : (site (some text)).toText ≠ (site none).toText := by
      rw [site_toText]
      simp [Url.toText, Url.credentials, site, lit]
    have hprefix : (site (some [])).toText.isPrefixOf (site (some text)).toText = true := by
      rw [site_toText, List.isPrefixOf_iff_prefix]
      exact List.prefix_append _ _
    have hdrop : (site (some text)).toText.drop (site (some [])).toText.length = text := by
      rw [site_toText text]
      exact List.drop_left
    simp only [if_neg hne, if_pos hprefix, hdrop, h text rfl, if_true]

theorem oneSite_standard : Standard := by
  have hbytes : ∀ {text : Text}, text.all isQueryUnit = true → ∀ c ∈ text, c < 256 := by
    intro text hunits c hc
    have hunit := List.all_eq_true.mp hunits c hc
    simp only [isQueryUnit, Bool.and_eq_true, decide_eq_true_eq] at hunit
    omega
  have hparams : ∀ {raw url}, WebUrl.parse raw = some url → ∀ kept, kept.Sublist (params url) →
      FormEncoding.Bytes kept := by
    intro raw url hparse kept hkept param hparam
    obtain ⟨query, rfl, hunits⟩ := readSite_some hparse
    have hread : ∀ c ∈ query.getD [], c < 256 := by
      cases query with
      | none => simp
      | some text => exact hbytes (hunits text rfl)
    exact FormEncoding.parse_bytes hread param (hkept.subset hparam)
  -- What the serializer writes may stand in a query.
  have hunit : ∀ {ps : List (Text × Text)}, FormEncoding.Bytes ps →
      (FormEncoding.serialize ps).all isQueryUnit = true := by
    intro ps hps
    rw [List.all_eq_true]
    intro c hc
    rcases FormEncoding.mem_serialize hps hc with hencoded | rfl | rfl
    · unfold FormEncoding.IsEncoded FormEncoding.isPlain at hencoded
      unfold isQueryUnit
      simp only [Bool.or_eq_true, Bool.and_eq_true, decide_eq_true_eq, List.mem_cons,
        List.not_mem_nil, or_false] at hencoded ⊢
      omega
    · decide
    · decide
  refine ⟨?_, ?_, ?_, ?_, rfl, rfl, FormEncoding.parse_append⟩
  · intro raw url hparse _
    obtain ⟨query, rfl, -⟩ := readSite_some hparse
    rfl
  · intro raw url hparse _
    obtain ⟨query, rfl, -⟩ := readSite_some hparse
    simp [site]
  · intro raw url hparse _ query hquery
    obtain ⟨query', rfl, hunits⟩ := readSite_some hparse
    refine readSite_toText query fun text htext => ?_
    subst htext
    rcases hquery with hsame | hnone | ⟨kept, hkept, hwritten⟩
    · exact hunits text hsame.symm
    · cases hnone
    · rw [Option.some.inj hwritten]
      exact hunit (hparams hparse kept hkept)
  · intro raw url hparse kept hkept
    exact FormEncoding.parse_serialize (hparams hparse kept hkept)

/-- A query in the encoding of forms. -/
theorem canonicalizeUrl_trackers_plain :
    canonicalizeUrl (lit "https://one.test/?ref=front-page&UTM_Source=x") =
      canonicalizeUrl (lit "https://one.test/?ref=front-page") := by
  refine ((canonicalizeUrl_trackers oneSite_standard).2 _ _ (site (some (lit "ref=front-page")))
    (lit "UTM_Source=x") _ (by decide +kernel) (.inr rfl)
    ⟨lit "UTM_Source", lit "x", ?_, isTrackingParam_of_tracksBy asciiHost_lowersAscii ?_⟩
      (.last _) ?_).mpr
    (.inr (.inr ⟨_, rfl, ?_, ?_⟩))
  case refine_2 => exact @TracksBy.utm (lit "UTM_") (lit "Source") rfl
  all_goals decide +kernel

/-- A space is written as `%20` in the one, and as a plus sign in the other. -/
theorem spaced_query : Standard ∧ ∃ raw raw' url piece query', WebUrl.parse raw = some url ∧
    url.IsHttp ∧
    IsTracker piece ∧ Inserted piece url.query query' ∧
    WebUrl.parse raw' = some { url with query := some query' } ∧
    canonicalizeUrl raw' ≠ canonicalizeUrl raw := by
  refine ⟨oneSite_standard, lit "https://one.test/?q=a%20b",
    lit "https://one.test/?q=a%20b&utm_source=x",
    site (some (lit "q=a%20b")), lit "utm_source=x", _, ?_, .inr rfl,
      ⟨lit "utm_source", lit "x", ?_, ?_⟩,
    .last _, ?_, ?_⟩
  all_goals decide +kernel

end Site

end Newsdeck.Worker

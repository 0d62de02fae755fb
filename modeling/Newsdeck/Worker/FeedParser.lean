import Newsdeck.Worker.CanonicalUrl
import Newsdeck.Worker.Collapse
import Newsdeck.Worker.FeedText

/-!
# Parsing a feed

`parseFeed` reads RSS 2.0, Atom and JSON Feed.  Each format has its own extraction of the fields of
an entry; one loop makes candidates of the entries, and records those it skips.

* `members` — the properties of a value; only `null` has none that can be read;
* `rssFields`, `atomFields`, `jsonFields` — the fields of an entry, by format;
* `candidateOf` — what the loop makes of the fields;
* `parseFeed` — the entry point.
-/

namespace Newsdeck.Worker

open Ecma Loop

/-- What the parser is built on. -/
class FeedLibraries where
  /-- `XMLValidator.validate`, and `XMLParser.parse` when it reports no error: the properties of the
  tree, or the message of the error. -/
  parseXml : Text → Except Text (List (Text × Json))
  /-- The message of the `SyntaxError` of `JSON.parse`. -/
  syntaxError : Text → Text
  /-- The hexadecimal SHA-256 digest. -/
  sha256 : Text → Text
  /-- `new Date(text).getTime()`; `none` is `NaN`. -/
  dateTime : Text → Option ℤ

def titleMaxLength : ℕ := 500

def summaryMaxLength : ℕ := 2000

inductive SkippedEntryReason where
  | missingUrl
  | missingTitle
  deriving DecidableEq, Repr

structure SkippedEntry where
  index : ℕ
  reason : SkippedEntryReason
  deriving DecidableEq, Repr

structure ParseFeedResult where
  candidates : List ArticleCandidate
  skipped : List SkippedEntry
  deriving DecidableEq, Repr

structure RawEntryFields where
  url : Option Text
  title : Option Text
  summary : Option Text
  author : Option Text
  imageUrl : Option Text
  publishedAt : Option Text
  deriving DecidableEq, Repr

/-! ### Values of unknown shape -/

/-- What can be read of a value under a name.  A string has methods, such as `link`, and an array
has some, but no field that is read here is a string, an object or an array because of them. -/
def members : Json → Except FeedFailure (List (Text × Json))
  | .null => .error .typeError
  | .obj members => .ok members
  | _ => .ok []

/-- `value?.name`. -/
def optionalMember (value : Option Json) (name : Text) : Option Json :=
  match value with
  | some (.obj members) => Json.get? members name
  | _ => none

def truthy : Json → Bool
  | .null => false
  | .bool b => b
  | .num q => q ≠ 0
  | .str text => text ≠ []
  | _ => true

/-- `typeof value === 'object'`, for a value that is not `null`. -/
def isObject : Json → Bool
  | .obj _ => true
  | .arr _ => true
  | _ => false

def toArray : Option Json → List Json
  | none => []
  | some .null => []
  | some (.arr values) => values
  | some value => [value]

def stringField : Option Json → Option Text
  | some (.str text) => some text
  | _ => none

/-- An XML tag's value: a plain string, or the text of a tag that carries attributes. -/
def textOf : Option Json → Option Text
  | some (.str text) => some text
  | some (.obj members) => stringField (Json.get? members (lit "#text"))
  | _ => none

def attrOf (node : Option Json) (attrName : Text) : Option Text :=
  stringField (optionalMember node attrName)

def hrefOf : Option Json → Option Text
  | some (.str text) => some text
  | link => attrOf link (lit "@_href")

/-! ### The fields of an entry -/

/-- Media RSS thumbnails, used by both RSS and Atom feeds. -/
def extractMediaThumbnail (node : List (Text × Json)) : Option Text :=
  attrOf (toArray (Json.get? node (lit "media:thumbnail"))).head? (lit "@_url")

/-- The URL of an enclosure, if it is an image or does not say what it is. -/
def imageEnclosure (enclosure : Json) : Option Text :=
  match attrOf (some enclosure) (lit "@_url") with
  | none => none
  | some url =>
      if url ≠ [] ∧ ((attrOf (some enclosure) (lit "@_type")).all (lit "image/").isPrefixOf) then
        some url
      else none

def extractRssImage (item : List (Text × Json)) : Option Text :=
  ((toArray (Json.get? item (lit "enclosure"))).findSome? imageEnclosure).or
    (extractMediaThumbnail item)

def rssFields (item : Json) : Except FeedFailure RawEntryFields := do
  let record ← members item
  .ok {
    url := textOf (Json.get? record (lit "link"))
    title := textOf (Json.get? record (lit "title"))
    summary := textOf (Json.get? record (lit "description"))
    author := (textOf (Json.get? record (lit "author"))).or
      (textOf (Json.get? record (lit "dc:creator")))
    imageUrl := extractRssImage record
    publishedAt := textOf (Json.get? record (lit "pubDate")) }

def extractAtomUrl (entry : List (Text × Json)) : Option Text :=
  let links := toArray (Json.get? entry (lit "link"))
  let relOf := fun link => attrOf (some link) (lit "@_rel")
  let alternate := links.find? fun link => relOf link = none ∨ relOf link = some (lit "alternate")
  (hrefOf alternate).or (hrefOf links.head?)

def extractAtomAuthor (entry : List (Text × Json)) : Option Text :=
  match (toArray (Json.get? entry (lit "author"))).head?.filter truthy with
  | some first => textOf (optionalMember (some first) (lit "name"))
  | none => none

def atomFields (entry : Json) : Except FeedFailure RawEntryFields := do
  let record ← members entry
  .ok {
    url := extractAtomUrl record
    title := textOf (Json.get? record (lit "title"))
    summary := (textOf (Json.get? record (lit "summary"))).or
      (textOf (Json.get? record (lit "content")))
    author := extractAtomAuthor record
    imageUrl := extractMediaThumbnail record
    publishedAt := (textOf (Json.get? record (lit "published"))).or
      (textOf (Json.get? record (lit "updated"))) }

/-- The elements of an array; no elements for anything else. -/
def elements : Option Json → List Json
  | some (.arr values) => values
  | _ => []

def jsonFields (item : Json) : Except FeedFailure RawEntryFields := do
  let entry ← members item
  let author := Json.get? entry (lit "author")
  let authors := elements (Json.get? entry (lit "authors"))
  .ok {
    url := stringField (Json.get? entry (lit "url"))
    title := stringField (Json.get? entry (lit "title"))
    summary := ((stringField (Json.get? entry (lit "summary"))).or
      (stringField (Json.get? entry (lit "content_text")))).or
      (stringField (Json.get? entry (lit "content_html")))
    author := (stringField (optionalMember author (lit "name"))).or
      (stringField (optionalMember authors.head? (lit "name")))
    imageUrl := stringField (Json.get? entry (lit "image"))
    publishedAt := (stringField (Json.get? entry (lit "date_published"))).or
      (stringField (Json.get? entry (lit "date_modified"))) }

/-! ### Candidates -/

section Parsing

variable [FeedLibraries]

def computeContentHash (title summary : Text) : Text :=
  FeedLibraries.sha256 (title ++ lit "\n" ++ summary)

/-- A bare `YYYY-MM-DDTHH:mm:ss` has no zone. -/
def bareDatetimePattern : Regex ℕ :=
  .cat [.bol, .times 4 .digit, .str "-", .times 2 .digit, .str "-", .times 2 .digit, .str "T",
    .times 2 .digit, .str ":", .times 2 .digit, .str ":", .times 2 .digit,
    .opt (.seq (.str ".") (.many1 .digit)), .eol]

def parseDate (raw : Option Text) : Option ℤ :=
  let trimmed := trim (raw.getD [])
  if trimmed.length = 0 then none
  else
    FeedLibraries.dateTime
      (if bareDatetimePattern.test trimmed then trimmed ++ lit "Z" else trimmed)

variable [Host] [WebUrl] [BuiltIns]

/-- The URL of an entry and its canonical form, if it has a URL that can be used. -/
def usableUrl (raw : RawEntryFields) : Option (Text × Text) :=
  match raw.url with
  | none => none
  | some url => if url = [] then none else (canonicalizeUrl url).map
    fun canonicalUrl => (url, canonicalUrl)

/-- A candidate, or why the entry is skipped. -/
def candidateOf (raw : RawEntryFields) : Except FeedFailure
    (Except SkippedEntryReason ArticleCandidate) :=
  match usableUrl raw with
  | none => .ok (.error .missingUrl)
  | some (url, canonicalUrl) => do
      let title ← sanitizeText raw.title titleMaxLength
      if title.length = 0 then .ok (.error .missingTitle)
      else do
        let summaryText ← sanitizeText raw.summary summaryMaxLength
        let summary := if 0 < summaryText.length then some summaryText else none
        let author ← sanitizeText raw.author titleMaxLength
        .ok (.ok {
          url := url
          canonicalUrl := canonicalUrl
          title := title
          summary := summary
          author := if 0 < author.length then some author else none
          imageUrl := raw.imageUrl
          contentHash := computeContentHash title (summary.getD [])
          publishedAt := parseDate raw.publishedAt })

/-- The loop over the entries, from an index on. -/
def buildFrom {T : Type} (extract : T → Except FeedFailure RawEntryFields) :
    ℕ → List T → ParseFeedResult → Except FeedFailure ParseFeedResult
  | _, [], result => .ok result
  | index, entry :: rest, result => do
      let raw ← extract entry
      match ← candidateOf raw with
      | .error reason =>
          buildFrom extract (index + 1) rest
            { result with skipped := result.skipped ++ [⟨index, reason⟩] }
      | .ok candidate =>
          buildFrom extract (index + 1) rest
            { result with candidates := result.candidates ++ [candidate] }

def buildCandidates {T : Type} (rawEntries : List T)
    (extract : T → Except FeedFailure RawEntryFields) :
    Except FeedFailure ParseFeedResult :=
  buildFrom extract 0 rawEntries ⟨[], []⟩

/-! ### The formats -/

def unrecognizedFormat (message : String) : FeedFailure :=
  .feedParse ⟨.unrecognizedFormat, lit message⟩

def parseRssItems (rss : Json) : Except FeedFailure ParseFeedResult := do
  let record ← members rss
  let channel := Json.get? record (lit "channel")
  buildCandidates (toArray (optionalMember channel (lit "item"))) rssFields

def parseAtomEntries (feed : Json) : Except FeedFailure ParseFeedResult := do
  let record ← members feed
  buildCandidates (toArray (Json.get? record (lit "entry"))) atomFields

def parseXmlFeedBody (body : Text) : Except FeedFailure ParseFeedResult :=
  match FeedLibraries.parseXml body with
  | .error message =>
      .error (.feedParse ⟨.invalidXml, lit "feed body is not valid XML: " ++ message⟩)
  | .ok doc =>
      match (Json.get? doc (lit "rss")).filter truthy,
        (Json.get? doc (lit "feed")).filter truthy with
      | some rss, _ => parseRssItems rss
      | none, some feed => parseAtomEntries feed
      | none, none => .error (unrecognizedFormat "XML document root is neither <rss> nor <feed>")

def parseJsonFeedBody (body : Text) : Except FeedFailure ParseFeedResult :=
  match Json.parse body with
  | none =>
      .error (.feedParse
        ⟨.invalidJson, lit "feed body is not valid JSON: " ++ FeedLibraries.syntaxError body⟩)
  | some doc =>
      if isObject doc then
        if (stringField (optionalMember (some doc) (lit "version"))).any
            (Regex.str "jsonfeed.org").test then
          buildCandidates (elements (optionalMember (some doc) (lit "items"))) jsonFields
        else .error (unrecognizedFormat "JSON body does not declare a JSON Feed version")
      else .error (unrecognizedFormat "JSON feed body is not an object")

def parseFeed (body : Text) : Except FeedFailure ParseFeedResult :=
  let trimmed := trim body
  if (lit "\x7b").isPrefixOf trimmed then parseJsonFeedBody trimmed else parseXmlFeedBody body

end Parsing

end Newsdeck.Worker

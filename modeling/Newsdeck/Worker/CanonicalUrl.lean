import Newsdeck.Ecma.Text

/-!
# The canonical URL of an article

`canonicalizeUrl` drops the fragment, a port that the scheme implies, and the parameters of trackers.
The URL parser and the form encoding belong to the platform.
-/

namespace Newsdeck.Worker

open Ecma

/-- A URL with a host. -/
structure Url where
  scheme : Text
  username : Text
  password : Text
  hostname : Text
  /-- `none` for the port the scheme implies. -/
  port : Option ℕ
  pathname : Text
  /-- What follows the question mark. -/
  query : Option Text
  fragment : Option Text
  deriving DecidableEq, Repr

class WebUrl where
  /-- `new URL(raw)`; `none` when it throws. -/
  parse : Text → Option Url
  /-- The setter of `hostname`. -/
  setHostname : Url → Text → Url
  /-- The parser of `application/x-www-form-urlencoded`. -/
  parseForm : Text → List (Text × Text)
  /-- The serializer of `application/x-www-form-urlencoded`. -/
  serializeForm : List (Text × Text) → Text

namespace Url

def protocol (url : Url) : Text := url.scheme ++ lit ":"

def credentials (url : Url) : Text :=
  if url.username = [] ∧ url.password = [] then []
  else url.username ++ (if url.password = [] then [] else lit ":" ++ url.password) ++ lit "@"

def toText (url : Url) : Text :=
  url.scheme ++ lit "://" ++ url.credentials ++ url.hostname ++
    (url.port.elim [] fun port => lit ":" ++ decimal port) ++ url.pathname ++
    (url.query.elim [] fun query => lit "?" ++ query) ++
    (url.fragment.elim [] fun fragment => lit "#" ++ fragment)

end Url

/-- `TRACKING_PARAMS`. -/
def trackingParams : List Text := [lit "fbclid", lit "gclid"]

/-- `TRACKING_PARAM_PREFIX`. -/
def trackingParamPrefix : Text := lit "utm_"

section Canonical

variable [Host] [WebUrl]

def isTrackingParam (key : Text) : Bool :=
  let lowered := Host.toLowerCase key
  trackingParamPrefix.isPrefixOf lowered || lowered ∈ trackingParams

/-- `url.searchParams.delete(key)`, which writes the query anew from the parameters that are left. -/
def deleteParam (key : Text) (state : Url × List (Text × Text)) : Url × List (Text × Text) :=
  let params := state.2.filter fun param => param.1 ≠ key
  let query := WebUrl.serializeForm params
  ({ state.1 with query := if query = [] then none else some query }, params)

/-- The loop over the keys, which are read before the first of them is deleted. -/
def dropTracking (url : Url) : Url :=
  let params := WebUrl.parseForm (url.query.getD [])
  ((params.map Prod.fst).foldl
    (fun state key => if isTrackingParam key then deleteParam key state else state) (url, params)).1

def canonicalizeUrl (raw : Text) : Option Text :=
  match WebUrl.parse raw with
  | none => none
  | some url =>
      if url.protocol ≠ lit "http:" ∧ url.protocol ≠ lit "https:" then none
      else
        let url := WebUrl.setHostname url (Host.toLowerCase url.hostname)
        let url := { url with fragment := none }
        let defaultPort := if url.protocol = lit "https:" then 443 else 80
        let url := if url.port = some defaultPort then { url with port := none } else url
        some (dropTracking url).toText

end Canonical

end Newsdeck.Worker

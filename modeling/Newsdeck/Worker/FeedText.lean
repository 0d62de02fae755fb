import Newsdeck.Ecma.Json
import Newsdeck.Ecma.OrderedMap
import Newsdeck.Loop.Detect

/-!
# The text of a feed entry

A title, a summary and an author pass through the same steps: character references are decoded, tags
become spaces, runs of whitespace become one space, and the text is cut.

* `decodeEntities` — throws where a numeric reference names no code point;
* `Decodable` — no reference of the text does;
* `sanitizeText` — the steps, one after the other.
-/

namespace Newsdeck.Worker

open Ecma Loop

/-! ### What a call of `parseFeed` may throw -/

inductive FeedParseErrorReason where
  | invalidXml
  | invalidJson
  | unrecognizedFormat
  deriving DecidableEq, Repr

structure FeedParseError where
  reason : FeedParseErrorReason
  message : Text
  deriving DecidableEq, Repr

inductive FeedFailure where
  | feedParse (error : FeedParseError)
  /-- A property of `null` was read. -/
  | typeError
  /-- `String.fromCodePoint` was given a number above `0x10FFFF`. -/
  | rangeError
  deriving DecidableEq, Repr

/-! ### Character references -/

/-- What `Function.prototype.toString` gives for a built-in function of this name. -/
class BuiltIns where
  functionText : Text → Text

/-- `NAMED_ENTITIES`. -/
def namedEntities : OrderedMap Text Text :=
  [(lit "amp", lit "&"), (lit "lt", lit "<"), (lit "gt", lit ">"), (lit "quot", lit "\""),
    (lit "apos", lit "'"), (lit "nbsp", lit " ")]

/-- The members of `Object.prototype` whose names are letters, and the functions they hold. -/
def inheritedFunctions : OrderedMap Text Text :=
  [(lit "constructor", lit "Object"), (lit "hasOwnProperty", lit "hasOwnProperty"),
    (lit "isPrototypeOf", lit "isPrototypeOf"),
    (lit "propertyIsEnumerable", lit "propertyIsEnumerable"),
    (lit "toLocaleString", lit "toLocaleString"), (lit "toString", lit "toString"),
    (lit "valueOf", lit "valueOf")]

/-- `NAMED_ENTITIES[entity]`, as the text that replaces a match. -/
def namedEntity [BuiltIns] (entity : Text) : Option Text :=
  (namedEntities.get? entity).or ((inheritedFunctions.get? entity).map BuiltIns.functionText)

/-- `[0-9a-fA-F]`. -/
def isHexDigit (c : ℕ) : Bool := (Json.hexValue c).isSome

/-- The number a run of hexadecimal digits denotes. -/
def hexDigitsValue (digits : Text) : ℕ :=
  digits.foldl (fun v c => 16 * v + (Json.hexValue c).getD 0) 0

/-- The nearest double; `none` is infinity. -/
def numberOf (n : ℕ) : Option ℕ := (Json.doubleOf n).map fun v => v.num.toNat

/-- `String.fromCodePoint`. -/
def fromCodePoint (codePoint : ℕ) : Except FeedFailure Text :=
  if 0x10FFFF < codePoint then .error .rangeError
  else if codePoint < 0x10000 then .ok [codePoint]
  else .ok [0xD800 + (codePoint - 0x10000) / 0x400, 0xDC00 + (codePoint - 0x10000) % 0x400]

/-- The number of a numeric reference, which may be infinite; `none` for a named reference. -/
def referenceNumber (entity : Text) : Option (Option ℕ) :=
  if (lit "#x").isPrefixOf entity || (lit "#X").isPrefixOf entity then
    some (numberOf (hexDigitsValue (entity.drop 2)))
  else if (lit "#").isPrefixOf entity then some (numberOf (Json.digitsValue (entity.drop 1)))
  else none

/-- The callback of the replacement. -/
def decodeEntity [BuiltIns] (entity : Text) : Except FeedFailure Text :=
  let found := lit "&" ++ entity ++ lit ";"
  match referenceNumber entity with
  | some (some codePoint) => fromCodePoint codePoint
  | some none => .ok found
  | none => .ok ((namedEntity entity).getD found)

/-- `front`, one or more units of the class, and a semicolon: what precedes the semicolon. -/
def delimited (front : Text) (p : ℕ → Bool) (t : Text) : Option Text :=
  if front.isPrefixOf t then
    match (t.drop front.length).takeWhile p, (t.drop front.length).dropWhile p with
    | c :: digits, 59 :: _ => some (front ++ c :: digits)
    | _, _ => none
  else none

/-- The group of a match of `&(#x[0-9a-fA-F]+|#\d+|[a-zA-Z]+);` at the start of the text. -/
def entityAt : Text → Option Text
  | 38 :: t => ((delimited (lit "#x") isHexDigit t).or (delimited (lit "#") isDigit t)).or
      (delimited [] isLetter t)
  | _ => none

/-- The scan behind the replacement: the first argument counts the units of the current match still to
be dropped. -/
def decodeFrom [BuiltIns] : ℕ → Text → Except FeedFailure Text
  | _, [] => .ok []
  | skip + 1, _ :: t => decodeFrom skip t
  | 0, c :: t =>
      match entityAt (c :: t) with
      | some entity => do
          let replacement ← decodeEntity entity
          let rest ← decodeFrom (entity.length + 1) t
          .ok (replacement ++ rest)
      | none => do
          let rest ← decodeFrom 0 t
          .ok (c :: rest)

def decodeEntities [BuiltIns] (text : Text) : Except FeedFailure Text := decodeFrom 0 text

example : @decodeEntities ⟨id⟩ (lit "&lt;b&gt; &#65;&#x42; &nope;&toString;") =
    .ok (lit "<b> AB &nope;toString") := by decide +kernel

/-! ### Tags and whitespace -/

/-- `text.replace(/<[^>]*>/g, ' ')`; the flag says that a tag is being dropped. -/
def dropTags : Bool → Text → Text
  | _, [] => []
  | true, c :: t => if c = 62 then dropTags false t else dropTags true t
  | false, c :: t => if c = 60 ∧ 62 ∈ t then 32 :: dropTags true t else c :: dropTags false t

def stripHtmlTags (text : Text) : Text := dropTags false text

/-- `text.replace(/\s+/g, ' ')`; the flag says that the run before has been replaced. -/
def collapseSpace : Bool → Text → Text
  | _, [] => []
  | replaced, c :: t =>
      if isSpace c then
        if replaced then collapseSpace true t else 32 :: collapseSpace true t
      else c :: collapseSpace false t

def sanitizeText [BuiltIns] (raw : Option Text) (maxLength : ℕ) : Except FeedFailure Text :=
  if raw.getD [] = [] then .ok []
  else do
    let decoded ← decodeEntities (raw.getD [])
    let collapsed := trim (collapseSpace false (stripHtmlTags decoded))
    .ok (if maxLength < collapsed.length then collapsed.take maxLength else collapsed)

/-! ### When a text can be decoded -/

/-- The references of a text, as its scan finds them. -/
def referencesFrom : ℕ → Text → List Text
  | _, [] => []
  | skip + 1, _ :: t => referencesFrom skip t
  | 0, c :: t =>
      match entityAt (c :: t) with
      | some entity => entity :: referencesFrom (entity.length + 1) t
      | none => referencesFrom 0 t

def references (text : Text) : List Text := referencesFrom 0 text

/-- The reference is a number that is finite and no code point. -/
def OutOfRange (entity : Text) : Prop :=
  ∃ n, referenceNumber entity = some (some n) ∧ 0x10FFFF < n

/-- No reference of the text, if there is one, is out of range. -/
def Decodable (raw : Option Text) : Prop :=
  ∀ entity ∈ references (raw.getD []), ¬ OutOfRange entity

section Decoding

variable [BuiltIns]

omit [BuiltIns] in
theorem fromCodePoint_cases (n : ℕ) :
    (∃ text, fromCodePoint n = .ok text ∧ n ≤ 0x10FFFF) ∨
    (fromCodePoint n = .error .rangeError ∧ 0x10FFFF < n) := by
  unfold fromCodePoint
  by_cases hn : 0x10FFFF < n
  · exact .inr ⟨if_pos hn, hn⟩
  · rw [if_neg hn]
    by_cases hsmall : n < 0x10000
    · exact .inl ⟨_, if_pos hsmall, by omega⟩
    · exact .inl ⟨_, if_neg hsmall, by omega⟩

theorem decodeEntity_cases (entity : Text) :
    (∃ text, decodeEntity entity = .ok text ∧ ¬ OutOfRange entity) ∨
    (decodeEntity entity = .error .rangeError ∧ OutOfRange entity) := by
  unfold decodeEntity OutOfRange
  cases referenceNumber entity with
  | none => exact .inl ⟨_, rfl, by simp⟩
  | some number =>
    cases number with
    | none => exact .inl ⟨_, rfl, by simp⟩
    | some n =>
      rcases fromCodePoint_cases n with ⟨text, htext, hn⟩ | ⟨herror, hn⟩
      · refine .inl ⟨text, htext, ?_⟩
        rintro ⟨m, hm, hout⟩
        cases hm
        omega
      · exact .inr ⟨herror, n, rfl, hn⟩

theorem decodeFrom_cases (t : Text) : ∀ skip,
    (∃ text, decodeFrom skip t = .ok text ∧ ∀ entity ∈ referencesFrom skip t, ¬ OutOfRange entity) ∨
    (decodeFrom skip t = .error .rangeError ∧ ∃ entity ∈ referencesFrom skip t, OutOfRange entity) := by
  induction t with
  | nil =>
    intro skip
    refine .inl ⟨[], ?_, ?_⟩
    · cases skip <;> rfl
    · cases skip <;> simp [referencesFrom]
  | cons c t ih =>
    intro skip
    cases skip with
    | succ skip => exact ih skip
    | zero =>
      unfold decodeFrom referencesFrom
      cases entityAt (c :: t) with
      | none =>
        dsimp only
        rcases ih 0 with ⟨rest, hrest, hin⟩ | ⟨herror, hout⟩
        · rw [hrest]
          exact .inl ⟨_, rfl, hin⟩
        · rw [herror]
          exact .inr ⟨rfl, hout⟩
      | some entity =>
        dsimp only
        rcases decodeEntity_cases entity with ⟨text, htext, hentity⟩ | ⟨herror, hentity⟩
        · rw [htext]
          rcases ih (entity.length + 1) with ⟨rest, hrest, hin⟩ | ⟨herror, e, he, hout⟩
          · rw [hrest]
            exact .inl ⟨_, rfl, List.forall_mem_cons.mpr ⟨hentity, hin⟩⟩
          · rw [herror]
            exact .inr ⟨rfl, e, List.mem_cons_of_mem _ he, hout⟩
        · rw [herror]
          exact .inr ⟨rfl, entity, List.mem_cons_self, hentity⟩

/-- **A text is sanitised**, unless a reference is out of range. -/
theorem sanitizeText_cases (raw : Option Text) (maxLength : ℕ) :
    (∃ text, sanitizeText raw maxLength = .ok text ∧ Decodable raw) ∨
    (sanitizeText raw maxLength = .error .rangeError ∧ ¬ Decodable raw) := by
  unfold sanitizeText Decodable
  by_cases hempty : raw.getD [] = []
  · rw [if_pos hempty, hempty]
    exact .inl ⟨[], rfl, by simp [references, referencesFrom]⟩
  · rw [if_neg hempty]
    rcases decodeFrom_cases (raw.getD []) 0 with ⟨text, htext, hin⟩ | ⟨herror, e, he, hout⟩
    · rw [decodeEntities, htext]
      exact .inl ⟨_, rfl, hin⟩
    · rw [decodeEntities, herror]
      exact .inr ⟨rfl, fun hall => hall e he hout⟩

end Decoding

end Newsdeck.Worker

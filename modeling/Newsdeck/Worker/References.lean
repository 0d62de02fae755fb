import Newsdeck.Ecma.JsonRoundTrip
import Newsdeck.Worker.FeedText

/-!
# What the references of a text stand for

A text is cut into units and references.  A reference stands for a character when it is one of six
names, or the number of a code point; a hexadecimal number may be marked by an `x` of either case.

* `tokens`, `meaning` — the cut, and what each part stands for;
* `decodeEntities_eq` — the scan decodes the parts one after the other;
* `decodeToken_cases` — of the parts, only a `Misread` reference is not decoded as what it stands
  for;
* `decodeEntities_iff` — a text is decoded as what it stands for exactly when no reference is
  misread.
-/

namespace Newsdeck.Worker

open Ecma

/-! ### Numbers -/

theorem numberOf_small {n : ℕ} (h : n < 2 ^ 53) : numberOf n = some n := by
  unfold numberOf
  rw [Json.doubleOf_natCast h]
  rfl

/-- A number that is rounded stays above the numbers that are not. -/
theorem numberOf_large {n m : ℕ} (h : 2 ^ 53 ≤ n) (hm : numberOf n = some m) : 2 ^ 53 ≤ m := by
  have hlog : 53 ≤ Nat.log 2 n := Nat.le_log_of_pow_le (by decide) h
  obtain ⟨k, hk⟩ : ∃ k : ℕ, Nat.log 2 n = 53 + k := ⟨_, (Nat.add_sub_cancel' hlog).symm⟩
  have hulp : max (-1074 : ℤ) (Int.log 2 |(n : ℚ)| - 52) = ((k + 1 : ℕ) : ℤ) := by
    rw [Nat.abs_cast, Int.log_natCast, hk]
    push_cast
    omega
  have hpow : 2 ^ (53 + k) ≤ n := hk ▸ Nat.pow_log_le_self 2 (by omega)
  obtain ⟨r, hr⟩ : ∃ r, r = Json.roundHalfEven (|(n : ℚ)| / 2 ^ ((k + 1 : ℕ) : ℤ)) := ⟨_, rfl⟩
  have hround : (2 ^ 52 : ℤ) ≤ r := by
    have hfloor : (2 ^ 52 : ℤ) ≤ ⌊|(n : ℚ)| / 2 ^ ((k + 1 : ℕ) : ℤ)⌋ := by
      rw [Int.le_floor, zpow_natCast, le_div_iff₀ (by positivity), Nat.abs_cast]
      have hprod : 2 ^ 52 * 2 ^ (k + 1) ≤ n := by
        rw [← pow_add, show 52 + (k + 1) = 53 + k by omega]
        exact hpow
      exact_mod_cast hprod
    rw [hr]
    unfold Json.roundHalfEven
    grind
  have hvalue : (r : ℚ) * 2 ^ ((k + 1 : ℕ) : ℤ) = ((r * 2 ^ (k + 1) : ℤ) : ℚ) := by
    push_cast
    rw [← zpow_natCast]
    norm_cast
  have hpos : ¬ (n : ℚ) < 0 := not_lt.mpr (Nat.cast_nonneg n)
  unfold numberOf Json.doubleOf at hm
  simp only [hulp, ← hr, hvalue, hpos, if_false] at hm
  split at hm
  · cases hm
  · obtain rfl := Option.some.inj hm
    have hbig : (2 ^ 53 : ℤ) ≤ r * 2 ^ (k + 1) := by
      have htwo : (2 : ℤ) ≤ 2 ^ (k + 1) := le_self_pow₀ (by norm_num) (by omega)
      nlinarith
    show 2 ^ 53 ≤ ((r * 2 ^ (k + 1) : ℤ) : ℚ).num.toNat
    rw [Rat.num_intCast]
    omega

/-! ### The parts of a text -/

inductive Token where
  | unit (c : ℕ)
  /-- What stands between the ampersand and the semicolon. -/
  | reference (body : Text)
  deriving DecidableEq, Repr

/-- What the expression matches, or a hexadecimal number marked by a capital `X`. -/
def referenceAt : Text → Option Text
  | 38 :: t => (entityAt (38 :: t)).or (delimited (lit "#X") isHexDigit t)
  | _ => none

/-- The first argument counts the units of the current reference still to be dropped. -/
def tokensFrom : ℕ → Text → List Token
  | _, [] => []
  | skip + 1, _ :: t => tokensFrom skip t
  | 0, c :: t =>
      match referenceAt (c :: t) with
      | some body => .reference body :: tokensFrom (body.length + 1) t
      | none => .unit c :: tokensFrom 0 t

def tokens (text : Text) : List Token := tokensFrom 0 text

/-- The reference as it was written. -/
def written (body : Text) : Text := 38 :: (body ++ [59])

/-- The number of a numeric reference. -/
def codePoint (body : Text) : Option ℕ :=
  if (lit "#x").isPrefixOf body || (lit "#X").isPrefixOf body then
    some (hexDigitsValue (body.drop 2))
  else if (lit "#").isPrefixOf body then some (Json.digitsValue (body.drop 1))
  else none

/-- The character a reference stands for. -/
def character (body : Text) : Option Text :=
  match codePoint body with
  | some n => (fromCodePoint n).toOption
  | none => namedEntities.get? body

/-- What a part stands for; a reference that stands for no character is left as it is. -/
def meaning : Token → Text
  | .unit c => [c]
  | .reference body => (character body).getD (written body)

/-- The text with every reference replaced that stands for a character, and nothing else. -/
def decoded (text : Text) : Text := (tokens text).flatMap meaning

/-- A reference that is not decoded as what it stands for: a number beyond the code points that is
finite as a double, a name of `Object.prototype`, or a capital `X`. -/
def Misread : Token → Prop
  | .unit _ => False
  | .reference body =>
      if (lit "#X").isPrefixOf body then (character body).isSome = true
      else OutOfRange body ∨ body ∈ inheritedFunctions.keys

instance : DecidablePred OutOfRange := fun entity =>
  match h : referenceNumber entity with
  | some (some n) => decidable_of_iff (0x10FFFF < n) (by simp [OutOfRange, h])
  | some none => .isFalse (by simp [OutOfRange, h])
  | none => .isFalse (by simp [OutOfRange, h])

instance : DecidablePred Misread
  | .unit _ => .isFalse id
  | .reference body => inferInstanceAs (Decidable (if (lit "#X").isPrefixOf body then _ else _))

/-! ### The scan -/

section Scan

variable [BuiltIns]

/-- How the scan decodes a part. -/
def decodeToken : Token → Except FeedFailure Text
  | .unit c => .ok [c]
  | .reference body =>
      if (lit "#X").isPrefixOf body then .ok (written body) else decodeEntity body

def decodeTokens : List Token → Except FeedFailure Text
  | [] => .ok []
  | token :: rest => do
      let replacement ← decodeToken token
      let rest ← decodeTokens rest
      .ok (replacement ++ rest)

omit [BuiltIns] in
theorem delimited_some {front body t : Text} {p : ℕ → Bool} (h : delimited front p t = some body) :
    ∃ digits rest, digits ≠ [] ∧ (∀ c ∈ digits, p c = true) ∧ body = front ++ digits ∧
      t = body ++ 59 :: rest := by
  unfold delimited at h
  split at h
  · rename_i hfront
    obtain ⟨u, rfl⟩ := List.isPrefixOf_iff_prefix.mp hfront
    rw [List.drop_left] at h
    split at h
    · rename_i c digits rest htake hdrop
      obtain rfl := Option.some.inj h
      refine ⟨c :: digits, rest, by simp, fun d hd => ?_, rfl, ?_⟩
      · exact List.all_eq_true.mp List.all_takeWhile d (htake ▸ hd)
      · rw [List.append_assoc, ← htake, ← hdrop, List.takeWhile_append_dropWhile]
    · cases h
  · cases h

omit [BuiltIns] in
/-- A reference has no ampersand inside, and its end is the first semicolon. -/
theorem referenceAt_some {c : ℕ} {t body : Text} (h : referenceAt (c :: t) = some body) :
    ∃ rest, c = 38 ∧ t = body ++ 59 :: rest ∧ 38 ∉ body := by
  have hone : ∀ (front : Text) (p : ℕ → Bool), 38 ∉ front → p 38 = false →
      delimited front p t = some body → ∃ rest, t = body ++ 59 :: rest ∧ 38 ∉ body := by
    intro front p hfront hp hdelimited
    obtain ⟨digits, rest, -, hdigits, rfl, ht⟩ := delimited_some hdelimited
    refine ⟨rest, ht, fun hmem => ?_⟩
    rcases List.mem_append.mp hmem with hmem | hmem
    · exact hfront hmem
    · exact absurd (hdigits 38 hmem) (by simp [hp])
  unfold referenceAt at h
  split at h
  · rename_i u heq
    obtain ⟨rfl, rfl⟩ := List.cons.inj heq
    have hall : ∃ rest, t = body ++ 59 :: rest ∧ 38 ∉ body := by
      rcases Option.or_eq_some_iff.mp h with h | ⟨-, h⟩
      · rcases Option.or_eq_some_iff.mp h with h | ⟨-, h⟩
        · rcases Option.or_eq_some_iff.mp h with h | ⟨-, h⟩
          · exact hone _ _ (by decide) (by decide) h
          · exact hone _ _ (by decide) (by decide) h
        · exact hone _ _ (by decide) (by decide) h
      · exact hone _ _ (by decide) (by decide) h
    obtain ⟨rest, ht, hbody⟩ := hall
    exact ⟨rest, rfl, ht, hbody⟩
  · cases h

omit [BuiltIns] in
/-- The expression does not match a capital `X`. -/
theorem entityAt_marked {c : ℕ} {t entity : Text} (h : entityAt (c :: t) = some entity) :
    (lit "#X").isPrefixOf entity = false := by
  rw [Bool.eq_false_iff, Ne, List.isPrefixOf_iff_prefix]
  have hone : ∀ (front : Text) (p : ℕ → Bool),
    (∀ d digits, p d = true → ¬ lit "#X" <+: front ++ d :: digits) →
      delimited front p t = some entity → ¬ lit "#X" <+: entity := by
    intro front p hfront hdelimited
    obtain ⟨digits, rest, hne, hdigits, rfl, -⟩ := delimited_some hdelimited
    cases digits with
    | nil => exact absurd rfl hne
    | cons d digits => exact hfront d digits (hdigits d List.mem_cons_self)
  unfold entityAt at h
  split at h
  · rename_i u heq
    obtain ⟨rfl, rfl⟩ := List.cons.inj heq
    rcases Option.or_eq_some_iff.mp h with h | ⟨-, h⟩
    · rcases Option.or_eq_some_iff.mp h with h | ⟨-, h⟩
      · refine hone _ _ (fun d digits _ hpre => ?_) h
        simp [lit] at hpre
      · refine hone _ _ (fun d digits hd hpre => ?_) h
        simp [lit] at hpre
        subst hpre
        exact absurd hd (by decide)
    · refine hone _ _ (fun d digits hd hpre => ?_) h
      simp [lit] at hpre
      obtain ⟨rfl, -⟩ := hpre
      exact absurd hd (by decide)
  · cases h

omit [BuiltIns] in
theorem tokensFrom_skip (w u : Text) : tokensFrom w.length (w ++ u) = tokensFrom 0 u := by
  induction w with
  | nil => rfl
  | cons c w ih => exact ih

theorem decodeFrom_skip (w u : Text) : decodeFrom w.length (w ++ u) = decodeFrom 0 u := by
  induction w with
  | nil => rfl
  | cons c w ih => exact ih

/-- What has no ampersand is copied. -/
theorem decodeFrom_copy {w : Text} (h : 38 ∉ w) (u : Text) :
    decodeFrom 0 (w ++ u) = (decodeFrom 0 u).map (w ++ ·) := by
  induction w with
  | nil =>
    rw [List.nil_append]
    cases decodeFrom 0 u <;> rfl
  | cons c w ih =>
    obtain ⟨hc, hw⟩ := not_or.mp (List.mem_cons.not.mp h)
    have hentity : entityAt (c :: (w ++ u)) = none := by
      unfold entityAt
      split
      · rename_i heq
        exact absurd (List.cons.inj heq).1.symm hc
      · rfl
    rw [List.cons_append, decodeFrom, hentity]
    dsimp only
    rw [ih hw]
    cases decodeFrom 0 u <;> rfl

/-- **The scan** decodes the parts one after the other. -/
theorem decodeEntities_eq (text : Text) : decodeEntities text = decodeTokens (tokens text) := by
  obtain ⟨n, hn⟩ : ∃ n, text.length ≤ n := ⟨_, le_rfl⟩
  unfold decodeEntities tokens
  induction n generalizing text with
  | zero =>
    obtain rfl := List.length_eq_zero_iff.mp (Nat.le_zero.mp hn)
    rfl
  | succ n ih =>
    cases text with
    | nil => rfl
    | cons c t =>
      have hlength : t.length ≤ n := Nat.le_of_succ_le_succ hn
      cases href : referenceAt (c :: t) with
      | none =>
        have hentity : entityAt (c :: t) = none := by
          unfold referenceAt at href
          split at href
          · rename_i u heq
            obtain ⟨rfl, rfl⟩ := List.cons.inj heq
            exact (Option.or_eq_none_iff.mp href).1
          · rename_i hnot
            unfold entityAt
            split
            · rename_i u heq
              exact absurd heq (hnot u)
            · rfl
        rw [decodeFrom, tokensFrom, hentity, href]
        dsimp only
        rw [ih t hlength]
        rfl
      | some body =>
        obtain ⟨rest, rfl, rfl, hbody⟩ := referenceAt_some href
        have hrest : rest.length ≤ n := by
          rw [List.length_append, List.length_cons] at hlength
          omega
        have hsplit : body ++ 59 :: rest = (body ++ [59]) ++ rest := by simp
        have hlast : body.length + 1 = (body ++ [59]).length := by simp
        have htokens : tokensFrom (body.length + 1) (body ++ 59 :: rest) = tokensFrom 0 rest := by
          rw [hsplit, hlast]
          exact tokensFrom_skip (body ++ [59]) rest
        rw [tokensFrom, href]
        dsimp only
        rw [htokens, decodeTokens, ← ih rest hrest, decodeFrom]
        cases hentity : entityAt (38 :: (body ++ 59 :: rest)) with
        | some entity =>
          obtain rfl : entity = body := by
            rw [referenceAt, hentity] at href
            exact Option.some.inj href
          have hskip : decodeFrom (entity.length + 1) (entity ++ 59 :: rest) =
              decodeFrom 0 rest := by
            rw [hsplit, hlast]
            exact decodeFrom_skip (entity ++ [59]) rest
          rw [decodeToken, entityAt_marked hentity]
          dsimp only
          rw [hskip]
          rfl
        | none =>
          -- A capital `X`: the reference is copied unit by unit.
          have hcapital : (lit "#X").isPrefixOf body = true := by
            rw [referenceAt, hentity, Option.none_or] at href
            obtain ⟨digits, _, -, -, rfl, -⟩ := delimited_some href
            rw [List.isPrefixOf_iff_prefix]
            exact List.prefix_append _ _
          have hcopied : 38 ∉ body ++ [59] := by simpa using hbody
          rw [decodeToken, if_pos hcapital]
          dsimp only
          rw [hsplit, decodeFrom_copy hcopied]
          cases decodeFrom 0 rest <;> simp [Except.map, bind, Except.bind, written]

/-! ### Misread references -/

omit [BuiltIns] in
theorem referenceNumber_eq (body : Text) : referenceNumber body =
    (codePoint body).map numberOf := by
  unfold referenceNumber codePoint
  split
  · rfl
  · split <;> rfl

omit [BuiltIns] in
theorem length_fromCodePoint_le {n : ℕ} {text : Text} (h : fromCodePoint n = .ok text) :
    text.length ≤ 2 := by
  unfold fromCodePoint at h
  split at h
  · cases h
  · split at h
    · obtain rfl := Except.ok.inj h
      simp
    · obtain rfl := Except.ok.inj h
      simp

/-- The engine prints a function with its name. -/
def PrintsNames : Prop :=
  ∀ name, ∃ rest, BuiltIns.functionText name = lit "function " ++ name ++ rest

/-- A numeric reference without a capital `X`. -/
theorem decodeEntity_number {body : Text} {n : ℕ} (hn : codePoint body = some n) :
    (¬ OutOfRange body ∧ decodeEntity body = .ok (meaning (.reference body))) ∨
    (OutOfRange body ∧ decodeEntity body = .error .rangeError) := by
  have hnumber : referenceNumber body = some (numberOf n) := by rw [referenceNumber_eq, hn]; rfl
  have hcharacter : meaning (.reference body) = ((fromCodePoint n).toOption).getD
      (written body) := by
    simp only [meaning, character, hn]
  unfold decodeEntity OutOfRange
  rw [hnumber, hcharacter]
  by_cases hsmall : n ≤ 0x10FFFF
  · -- A code point.
    rw [numberOf_small (by omega)]
    rcases fromCodePoint_cases n with ⟨text, htext, -⟩ | ⟨-, hlarge⟩
    · refine .inl ⟨?_, by simp [htext, Except.toOption]⟩
      rintro ⟨m, hm, hlarge⟩
      cases hm
      omega
    · omega
  · have herror : fromCodePoint n = .error .rangeError := if_pos (not_le.mp hsmall)
    rw [herror]
    cases hdouble : numberOf n with
    | none => exact .inl ⟨by simp, by simp [written, lit, Except.toOption]⟩
    | some m =>
      -- The number was rounded, and is still beyond the code points.
      have hm : 0x10FFFF < m := by
        by_cases hexact : n < 2 ^ 53
        · rw [numberOf_small hexact] at hdouble
          cases hdouble
          omega
        · have := numberOf_large (not_lt.mp hexact) hdouble
          omega
      exact .inr ⟨⟨m, rfl, hm⟩, if_pos hm⟩

/-- A named reference. -/
theorem decodeEntity_name (hprints : PrintsNames) {body : Text} (hnone : codePoint body = none) :
    (body ∉ inheritedFunctions.keys ∧ decodeEntity body = .ok (meaning (.reference body))) ∨
    (body ∈ inheritedFunctions.keys ∧ ∃ text, decodeEntity body = .ok text ∧
      (meaning (.reference body)).length < text.length) := by
  have hnumber : referenceNumber body = none := by rw [referenceNumber_eq, hnone]; rfl
  have hmeaning : meaning (.reference body) = (namedEntities.get? body).getD (written body) := by
    simp only [meaning, character, hnone]
  have hdecode : decodeEntity body = .ok ((namedEntity body).getD (written body)) := by
    unfold decodeEntity
    rw [hnumber]
    simp [written, lit]
  rw [hmeaning, hdecode]
  unfold namedEntity
  by_cases hinherited : body ∈ inheritedFunctions.keys
  · have hnames : ∀ key ∈ inheritedFunctions.keys, namedEntities.get? key = none ∧
        ∃ name, inheritedFunctions.get? key = some name ∧ key.length < name.length + 7 := by
      decide +kernel
    obtain ⟨hnamed, name, hname, hlength⟩ := hnames body hinherited
    obtain ⟨rest, htext⟩ := hprints name
    refine .inr ⟨hinherited, _, rfl, ?_⟩
    rw [hnamed, hname, Option.none_or, Option.map_some, Option.getD_none, Option.getD_some, htext,
      written, List.length_cons, List.length_append, List.length_append, List.length_append]
    simp only [List.length_singleton, lit, List.length_map, String.length_toList]
    have hword : "function ".length = 9 := rfl
    omega
  · have hnone : inheritedFunctions.get? body = none := by
      rw [Option.eq_none_iff_forall_ne_some]
      intro name hname
      exact hinherited (OrderedMap.mem_keys_iff.mpr ⟨name, hname⟩)
    rw [hnone, Option.map_none, Option.or_none]
    exact .inl ⟨hinherited, rfl⟩

/-- A number beyond the code points is none of the names, and a name is no number. -/
theorem decodeToken_cases (hprints : PrintsNames) (token : Token) :
    (¬ Misread token ∧ decodeToken token = .ok (meaning token)) ∨
    (Misread token ∧ ∀ text, decodeToken token = .ok text →
      (meaning token).length < text.length) := by
  cases token with
  | unit c => exact .inl ⟨id, rfl⟩
  | reference body =>
    unfold decodeToken Misread
    by_cases hcapital : (lit "#X").isPrefixOf body = true
    · simp only [if_pos hcapital]
      -- The reference is left as it is.
      cases hcharacter : character body with
      | none => exact .inl ⟨by simp, by simp [meaning, hcharacter]⟩
      | some text =>
        refine .inr ⟨rfl, fun out hout => ?_⟩
        obtain rfl := Except.ok.inj hout
        obtain ⟨rest, hrest⟩ := List.isPrefixOf_iff_prefix.mp hcapital
        have hshort : text.length ≤ 2 := by
          have hcode : ∃ n, codePoint body = some n := by simp [codePoint, hcapital]
          obtain ⟨n, hn⟩ := hcode
          simp only [character, hn] at hcharacter
          cases htext : fromCodePoint n with
          | error error => simp [htext, Except.toOption] at hcharacter
          | ok t =>
            rw [htext] at hcharacter
            exact Option.some.inj hcharacter ▸ length_fromCodePoint_le htext
        have hlong : (written body).length = rest.length + 4 := by
          rw [← hrest]
          simp [written, lit]
        simp only [meaning, hcharacter, Option.getD_some]
        omega
    · simp only [if_neg hcapital]
      cases hcode : codePoint body with
      | some n =>
        have hinherited : body ∉ inheritedFunctions.keys := by
          intro hmem
          have hnames : ∀ key ∈ inheritedFunctions.keys, codePoint key = none := by decide +kernel
          rw [hnames body hmem] at hcode
          cases hcode
        rcases decodeEntity_number hcode with ⟨hin, hdecode⟩ | ⟨hout, herror⟩
        · exact .inl ⟨not_or.mpr ⟨hin, hinherited⟩, hdecode⟩
        · refine .inr ⟨.inl hout, fun text htext => ?_⟩
          rw [herror] at htext
          cases htext
      | none =>
        have hin : ¬ OutOfRange body := by
          rintro ⟨n, hn, -⟩
          rw [referenceNumber_eq, hcode] at hn
          cases hn
        rcases decodeEntity_name hprints hcode with ⟨hother, hdecode⟩ | ⟨hinherited, text,
          htext, hlong⟩
        · exact .inl ⟨not_or.mpr ⟨hin, hother⟩, hdecode⟩
        · refine .inr ⟨.inr hinherited, fun out hout => ?_⟩
          rw [htext] at hout
          exact Except.ok.inj hout ▸ hlong

theorem decodeTokens_ok (hprints : PrintsNames) {parts : List Token}
    (h : ∀ token ∈ parts, ¬ Misread token) :
    decodeTokens parts = .ok (parts.flatMap meaning) := by
  induction parts with
  | nil => rfl
  | cons token rest ih =>
    obtain ⟨htoken, hrest⟩ := List.forall_mem_cons.mp h
    rcases decodeToken_cases hprints token with ⟨-, hdecode⟩ | ⟨hmisread, -⟩
    · rw [decodeTokens, hdecode, ih hrest]
      rfl
    · exact absurd hmisread htoken

/-- A part that is misread makes the text longer than it should be, if it is decoded at all. -/
theorem decodeTokens_length (hprints : PrintsNames) (parts : List Token) : ∀ {out},
    decodeTokens parts = .ok out → (parts.flatMap meaning).length ≤ out.length ∧
      ((∃ token ∈ parts, Misread token) → (parts.flatMap meaning).length < out.length) := by
  induction parts with
  | nil =>
    intro out h
    obtain rfl := Except.ok.inj h
    simp
  | cons token rest ih =>
    intro out h
    cases hfirst : decodeToken token with
    | error error => simp [decodeTokens, hfirst, bind, Except.bind] at h
    | ok first =>
      cases hlater : decodeTokens rest with
      | error error => simp [decodeTokens, hfirst, hlater, bind, Except.bind] at h
      | ok later =>
        simp only [decodeTokens, hfirst, hlater, bind, Except.bind, Except.ok.injEq] at h
        subst h
        obtain ⟨hle, hlt⟩ := ih hlater
        rw [List.flatMap_cons, List.length_append, List.length_append, List.exists_mem_cons_iff]
        rcases decodeToken_cases hprints token with ⟨hread, hdecode⟩ | ⟨-, hlong⟩
        · obtain rfl := Except.ok.inj (hfirst.symm.trans hdecode)
          refine ⟨by omega, fun hmisread => ?_⟩
          have := hlt (hmisread.resolve_left hread)
          omega
        · have := hlong first hfirst
          exact ⟨by omega, fun _ => by omega⟩

/-- **Decoding.**  A text is decoded as what it stands for exactly when no reference is misread. -/
theorem decodeEntities_iff (hprints : PrintsNames) (text : Text) :
    decodeEntities text = .ok (decoded text) ↔ ∀ token ∈ tokens text, ¬ Misread token := by
  rw [decodeEntities_eq]
  constructor
  · intro hdecoded token htoken hmisread
    have hlong := (decodeTokens_length hprints (tokens text) hdecoded).2 ⟨token, htoken, hmisread⟩
    exact absurd hlong (lt_irrefl _)
  · exact decodeTokens_ok hprints

end Scan

/-- A part as it was written. -/
def spelled : Token → Text
  | .unit c => [c]
  | .reference body => written body

/-- The parts make up the text. -/
theorem tokens_spelled (text : Text) : (tokens text).flatMap spelled = text := by
  obtain ⟨n, hn⟩ : ∃ n, text.length ≤ n := ⟨_, le_rfl⟩
  unfold tokens
  induction n generalizing text with
  | zero =>
    obtain rfl := List.length_eq_zero_iff.mp (Nat.le_zero.mp hn)
    rfl
  | succ n ih =>
    cases text with
    | nil => rfl
    | cons c t =>
      have hlength : t.length ≤ n := Nat.le_of_succ_le_succ hn
      rw [tokensFrom]
      cases href : referenceAt (c :: t) with
      | none =>
        dsimp only
        rw [List.flatMap_cons, ih t hlength]
        rfl
      | some body =>
        obtain ⟨rest, rfl, rfl, -⟩ := referenceAt_some href
        have hsplit : body ++ 59 :: rest = (body ++ [59]) ++ rest := by simp
        have hlast : body.length + 1 = (body ++ [59]).length := by simp
        have hrest : rest.length ≤ n := by
          rw [List.length_append, List.length_cons] at hlength
          omega
        dsimp only
        rw [hlast, hsplit, tokensFrom_skip, List.flatMap_cons, ih rest hrest]
        rfl

end Newsdeck.Worker

import Newsdeck.Ecma.JsonRefill
import Newsdeck.Library.Masking

/-!
# Where a unit stands in a text

Reading a text unit by unit, it is known at each whether it stands outside the strings, in one, or
in an escape.

* `Place`, `lex` — the places, and the one at which reading ends;
* `lex_of_parse`, `quotesIn_of_parse` — what reads as a value ends outside, and has two quotation
  marks for each string;
* `refilled_of_masked` — a copy whose masks stand for stretches within strings is a refilled text.
-/

namespace Ecma

namespace Json

/-- The quotation marks of a text that are not escaped; whether the first unit is must be said. -/
def quotesIn : Bool → Text → ℕ
  | _, [] => 0
  | true, _ :: t => quotesIn false t
  | false, c :: t =>
      if c = 92 then quotesIn true t else if c = 34 then quotesIn false t + 1 else quotesIn false t

/-- The next quotation mark that is not escaped is followed by a colon. -/
def closesKey : Bool → Text → Bool
  | _, [] => false
  | true, _ :: t => closesKey false t
  | false, c :: t =>
      if c = 92 then closesKey true t
      else if c = 34 then (skipSpace t).head? = some 58
      else closesKey false t

/-- Whether the unit behind a text is escaped. -/
def pending : Bool → Text → Bool
  | escaped, [] => escaped
  | true, _ :: t => pending false t
  | false, c :: t => pending (c = 92) t

/-- What is escaped is a unit that an escape has. -/
def Escapes : Bool → Text → Prop
  | _, [] => True
  | true, c :: t => (c = 117 ∨ (unescape c).isSome = true) ∧ Escapes false t
  | false, c :: t => Escapes (c = 92) t

instance decidableEscapes : ∀ (escaped : Bool) (t : Text), Decidable (Escapes escaped t)
  | _, [] => isTrue trivial
  | true, c :: t =>
      have := decidableEscapes false t
      inferInstanceAs (Decidable ((c = 117 ∨ (unescape c).isSome = true) ∧ Escapes false t))
  | false, c :: t => decidableEscapes (c = 92) t

/-- Every backslash that is not escaped begins an escape. -/
structure Tidy (t : Text) : Prop where
  escapes : Escapes false t
  ends : pending false t = false

section Quotes

variable {s t : Text}

theorem quotesIn_append (s t : Text) : ∀ escaped,
    quotesIn escaped (s ++ t) = quotesIn escaped s + quotesIn (pending escaped s) t := by
  induction s with
  | nil => exact fun escaped => (Nat.zero_add _).symm
  | cons c s ih =>
    rintro (_ | _)
    · rw [List.cons_append, quotesIn, quotesIn, pending]
      by_cases hslash : c = 92
      · simp only [hslash, if_true, decide_true, ih]
      · by_cases hquote : c = 34
        · subst hquote
          simp only [hslash, if_false, if_true, decide_false, ih]
          omega
        · simp only [hslash, hquote, if_false, decide_false, ih]
    · exact ih false

theorem pending_append (s t : Text) : ∀ escaped, pending escaped (s ++ t) = pending
    (pending escaped s) t := by
  induction s with
  | nil => exact fun _ => rfl
  | cons c s ih =>
    rintro (_ | _)
    · exact ih _
    · exact ih _

theorem escapes_append (s t : Text) : ∀ escaped,
    Escapes escaped (s ++ t) ↔ Escapes escaped s ∧ Escapes (pending escaped s) t := by
  induction s with
  | nil => exact fun _ => (and_iff_right trivial).symm
  | cons c s ih =>
    rintro (_ | _)
    · exact ih _
    · show _ ∧ Escapes false (s ++ t) ↔ (_ ∧ Escapes false s) ∧ Escapes (pending false s) t
      rw [ih, and_assoc]

/-- Behind a unit that is no backslash nothing is escaped. -/
theorem pending_of_getLast? {c : ℕ} (hc : c ≠ 92) (h : s.getLast? = some c) (escaped : Bool) :
    pending escaped s = false := by
  obtain ⟨s, rfl⟩ := List.getLast?_eq_some_iff.mp h
  rw [pending_append]
  cases pending escaped s with
  | false => exact decide_eq_false hc
  | true => rfl

theorem pending_of_not_mem (h : 92 ∉ s) : pending false s = false := by
  rcases List.eq_nil_or_concat' s with rfl | ⟨s, c, rfl⟩
  · rfl
  · exact pending_of_getLast? (c := c) (by rintro rfl; simp at h) (by simp) false

/-- A text without quotation marks and backslashes. -/
theorem quotesIn_of_not_mem (hquote : 34 ∉ s) (hslash : 92 ∉ s) : quotesIn false s = 0 := by
  induction s with
  | nil => rfl
  | cons c s ih =>
    rw [List.mem_cons, not_or] at hquote hslash
    rw [quotesIn, if_neg (Ne.symm hslash.1), if_neg (Ne.symm hquote.1)]
    exact ih hquote.2 hslash.2

theorem escapes_of_not_mem (hslash : 92 ∉ s) : Escapes false s := by
  induction s with
  | nil => trivial
  | cons c s ih =>
    rw [List.mem_cons, not_or] at hslash
    rw [Escapes, decide_eq_false (Ne.symm hslash.1)]
    exact ih hslash.2

end Quotes

/-! ### Places -/

inductive Place where
  | outside
  | inside
  | escape
  | hex (digits : Text)
  deriving DecidableEq

/-- The place behind a unit. -/
def Place.next : Place → ℕ → Option Place
  | .outside, c => if c = 34 then some .inside else if isStructural c then some .outside else none
  | .inside, c =>
      if c = 34 then some .outside else if c = 92 then some .escape else if c < 32 then none
      else some .inside
  | .escape, c =>
      if c = 117 then some (.hex []) else if (unescape c).isSome then some .inside else none
  | .hex digits, c =>
      if (hexValue c).isSome then some (if digits.length = 3 then .inside else .hex (digits ++ [c]))
      else none

/-- The place behind a text. -/
def lex : Place → Text → Option Place
  | q, [] => some q
  | q, c :: t => (q.next c).bind fun q' => lex q' t

/-- What has been read of an escape. -/
def Place.read : Place → Text
  | .outside | .inside => []
  | .escape => [92]
  | .hex digits => 92 :: 117 :: digits

/-- A place that is reached. -/
def Place.Ok : Place → Prop
  | .outside | .inside | .escape => True
  | .hex digits => digits.length < 4 ∧ ∀ d ∈ digits, (hexValue d).isSome = true

section Lex

variable {q q' : Place} {c : ℕ} {s t r : Text}

@[simp] theorem lex_nil (q : Place) : lex q [] = some q := rfl

theorem lex_cons (q : Place) (c : ℕ) (t : Text) :
    lex q (c :: t) = (q.next c).bind fun q' => lex q' t := rfl

theorem lex_append (q : Place) (s t : Text) : lex q (s ++ t) = (lex q s).bind
    fun q' => lex q' t := by
  induction s generalizing q with
  | nil => rfl
  | cons c s ih =>
    rw [List.cons_append, lex_cons, lex_cons, Option.bind_assoc]
    exact congrArg _ (funext fun q' => ih q')

theorem Place.Ok.next (hq : q.Ok) (h : q.next c = some q') : q'.Ok := by
  cases q with
  | outside =>
    simp only [Place.next] at h
    split_ifs at h <;> cases h <;> trivial
  | inside =>
    simp only [Place.next] at h
    split_ifs at h <;> cases h <;> trivial
  | escape =>
    simp only [Place.next] at h
    split_ifs at h <;> cases h
    · exact ⟨by decide, by simp⟩
    · trivial
  | hex digits =>
    obtain ⟨hlength, hdigits⟩ := hq
    simp only [Place.next] at h
    split_ifs at h with hc hthree <;> cases h
    · trivial
    · refine ⟨?_, ?_⟩
      · rw [List.length_append, List.length_singleton]
        omega
      · intro d hd
        rcases List.mem_append.mp hd with hd | hd
        · exact hdigits d hd
        · rwa [List.mem_singleton.mp hd]

theorem Place.Ok.lex (hq : q.Ok) (h : Json.lex q t = some q') : q'.Ok := by
  induction t generalizing q with
  | nil =>
    obtain rfl := Option.some.inj h
    exact hq
  | cons c t ih =>
    obtain ⟨p, hp, hrest⟩ := Option.bind_eq_some_iff.mp h
    exact ih (hq.next hp) hrest

end Lex

/-! ### What the reader goes through -/

/-- The rest of a string up to its quotation mark, and what follows. -/
inductive Chars : Text → Text → Prop
  | close (r : Text) : Chars (34 :: r) r
  | unit {c : ℕ} {t r : Text} (hquote : c ≠ 34) (hslash : c ≠ 92) (hcontrol : ¬ c < 32)
      (rest : Chars t r) :
      Chars (c :: t) r
  | escape {e : ℕ} {t r : Text} (hother : e ≠ 117) (h : (unescape e).isSome = true)
      (rest : Chars t r) :
      Chars (92 :: e :: t) r
  | unicode {a b c d : ℕ} {t r : Text} (ha : (hexValue a).isSome = true)
      (hb : (hexValue b).isSome = true) (hc : (hexValue c).isSome = true)
      (hd : (hexValue d).isSome = true) (rest : Chars t r) :
      Chars (92 :: 117 :: a :: b :: c :: d :: t) r

section Read

variable {n : ℕ} {s t r : Text} {v : Json}

theorem chars_of_parseChars (h : parseChars t = some (s, r)) : Chars t r := by
  induction hlength : t.length using Nat.strong_induction_on generalizing t s with
  | _ n ih =>
    have hrest : ∀ {u : Text} {k : Text}, u.length < t.length → parseChars u = some (k, r) →
        Chars u r :=
      fun hu hk => ih _ (hlength ▸ hu) hk rfl
    rw [parseChars.eq_def] at h
    split at h
    · cases h
    · rename_i c u
      split_ifs at h with hquote hslash hcontrol
      · obtain ⟨-, rfl⟩ := Prod.mk.inj (Option.some.inj h)
        rw [hquote]
        exact .close u
      · subst hslash
        split at h
        · cases h
        · rename_i e w
          split_ifs at h with hunicode
          · subst hunicode
            split at h
            · rename_i a b c d rest
              simp only [Option.bind_eq_bind, Option.bind_eq_some_iff] at h
              obtain ⟨va, ha, vb, hb, vc, hc, vd, hd, ⟨k, x⟩, hk, heq⟩ := h
              obtain ⟨-, rfl⟩ := Prod.mk.inj (Option.some.inj heq)
              refine .unicode (Option.isSome_of_eq_some ha) (Option.isSome_of_eq_some hb)
                (Option.isSome_of_eq_some hc) (Option.isSome_of_eq_some hd) (hrest ?_ hk)
              simp only [List.length_cons]
              omega
            · cases h
          · simp only [Option.bind_eq_bind, Option.bind_eq_some_iff] at h
            obtain ⟨ve, he, ⟨k, x⟩, hk, heq⟩ := h
            obtain ⟨-, rfl⟩ := Prod.mk.inj (Option.some.inj heq)
            refine .escape hunicode (Option.isSome_of_eq_some he) (hrest ?_ hk)
            simp only [List.length_cons]
            omega
      · simp only [Option.bind_eq_bind, Option.bind_eq_some_iff] at h
        obtain ⟨⟨k, x⟩, hk, heq⟩ := h
        obtain ⟨-, rfl⟩ := Prod.mk.inj (Option.some.inj heq)
        exact .unit hquote hslash hcontrol (hrest (Nat.lt_succ_self _) hk)

theorem hexValue_ne {c : ℕ} (h : (hexValue c).isSome = true) : c ≠ 92 ∧ c ≠ 34 := by
  constructor <;>
  · rintro rfl
    cases h

theorem Chars.lex_eq (h : Chars t r) : lex .inside t = lex .outside r := by
  induction h with
  | close r => rfl
  | unit hquote hslash hcontrol _ ih =>
    rw [lex_cons, Place.next, if_neg hquote, if_neg hslash, if_neg hcontrol]
    exact ih
  | escape hother he _ ih =>
    rw [lex_cons, Place.next, if_neg (by decide), if_pos rfl, Option.bind_some, lex_cons,
      Place.next, if_neg hother, if_pos he]
    exact ih
  | unicode ha hb hc hd _ ih => simpa [lex_cons, Place.next, ha, hb, hc, hd] using ih

theorem Chars.quotesIn_eq (h : Chars t r) : quotesIn false t = quotesIn false r + 1 := by
  induction h with
  | close r => rfl
  | unit hquote hslash _ _ ih => rw [quotesIn, if_neg hslash, if_neg hquote, ih]
  | escape _ _ _ ih => exact ih
  | unicode ha hb hc hd _ ih =>
    simpa [quotesIn, hexValue_ne ha, hexValue_ne hb, hexValue_ne hc, hexValue_ne hd] using ih

theorem Chars.closesKey_eq (h : Chars t r) :
    closesKey false t = ((skipSpace r).head? = some 58 : Bool) := by
  induction h with
  | close r => rfl
  | unit hquote hslash _ _ ih => rw [closesKey, if_neg hslash, if_neg hquote, ih]
  | escape _ _ _ ih => exact ih
  | unicode ha hb hc hd _ ih =>
    simpa [closesKey, hexValue_ne ha, hexValue_ne hb, hexValue_ne hc, hexValue_ne hd] using ih

theorem Chars.tidy (h : Chars t r) (hr : Tidy r) : Tidy t := by
  induction h with
  | close r => exact ⟨hr.escapes, hr.ends⟩
  | unit _ hslash _ _ ih =>
    obtain ⟨hescapes, hends⟩ := ih hr
    exact ⟨by rwa [Escapes, decide_eq_false hslash], by rwa [pending, decide_eq_false hslash]⟩
  | escape _ he _ ih =>
    obtain ⟨hescapes, hends⟩ := ih hr
    exact ⟨⟨.inr he, hescapes⟩, hends⟩
  | unicode ha hb hc hd _ ih =>
    obtain ⟨hescapes, hends⟩ := ih hr
    constructor
    · simpa [Escapes, hexValue_ne ha, hexValue_ne hb, hexValue_ne hc, hexValue_ne hd] using hescapes
    · simpa [pending, hexValue_ne ha, hexValue_ne hb, hexValue_ne hc, hexValue_ne hd] using hends

/-- A structural unit is neither a quotation mark nor a backslash. -/
theorem isStructural_ne {c : ℕ} (h : isStructural c = true) : c ≠ 34 ∧ c ≠ 92 := by
  constructor <;>
  · rintro rfl
    cases h

theorem lex_of_spans (h : Spans n t r) : lex .outside t = lex .outside r := by
  induction h with
  | done => rfl
  | unit hc _ ih =>
    rw [lex_cons, Place.next, if_neg (isStructural_ne hc).1, if_pos hc]
    exact ih
  | string hchars _ ih =>
    rw [lex_cons, Place.next, if_pos rfl, Option.bind_some, (chars_of_parseChars hchars).lex_eq]
    exact ih

theorem quotesIn_of_spans (h : Spans n t r) : quotesIn false t = quotesIn false r + 2 * n := by
  induction h with
  | done => rfl
  | unit hc _ ih => rw [quotesIn, if_neg (isStructural_ne hc).2, if_neg (isStructural_ne hc).1, ih]
  | string hchars _ ih =>
    rw [quotesIn, if_neg (by decide), if_pos rfl, (chars_of_parseChars hchars).quotesIn_eq, ih]
    omega

theorem tidy_of_spans (h : Spans n t r) (hr : Tidy r) : Tidy t := by
  induction h with
  | done => exact hr
  | unit hc _ ih =>
    obtain ⟨hescapes, hends⟩ := ih hr
    have hslash := decide_eq_false (isStructural_ne hc).2
    exact ⟨by rwa [Escapes, hslash], by rwa [pending, hslash]⟩
  | string hchars _ ih =>
    obtain ⟨hescapes, hends⟩ := (chars_of_parseChars hchars).tidy (ih hr)
    exact ⟨hescapes, hends⟩

/-- **A text that reads as a value ends outside of its strings.** -/
theorem lex_of_parse (h : parse t = some v) : lex .outside t = some .outside :=
  lex_of_spans (spans_of_parse h)

/-- **It has two quotation marks for each string of the value.** -/
theorem quotesIn_of_parse (h : parse t = some v) : quotesIn false t = 2 * stringCount v := by
  rw [quotesIn_of_spans (spans_of_parse h)]
  exact Nat.zero_add _

theorem tidy_of_parse (h : parse t = some v) : Tidy t :=
  tidy_of_spans (spans_of_parse h) ⟨trivial, rfl⟩

end Read

/-! ### Stretches within a string -/

/-- A stretch of a string that the reader goes through, whatever follows. -/
def Body (r : Text) : Prop :=
  ∃ k, ∀ t, parseChars (r ++ t) = (parseChars t).map fun p => (k ++ p.1, p.2)

section Body

variable {c e : ℕ} {q q' : Place} {r s t : Text}

theorem body_nil : Body [] := ⟨[], fun t => by simp⟩

theorem Body.append (hr : Body r) (hs : Body s) : Body (r ++ s) := by
  obtain ⟨k, hk⟩ := hr
  obtain ⟨l, hl⟩ := hs
  refine ⟨k ++ l, fun t => ?_⟩
  rw [List.append_assoc, hk, hl]
  cases parseChars t <;> simp

theorem body_unit (hquote : c ≠ 34) (hslash : c ≠ 92) (hcontrol : ¬ c < 32) : Body [c] := by
  refine ⟨[c], fun t => ?_⟩
  rw [List.singleton_append, parseChars.eq_def]
  simp only [hquote, hslash, hcontrol, if_false]
  cases parseChars t <;> rfl

theorem body_escape (hother : e ≠ 117) (h : (unescape e).isSome = true) : Body [92, e] := by
  obtain ⟨v, hv⟩ := Option.isSome_iff_exists.mp h
  refine ⟨[v], fun t => ?_⟩
  rw [List.cons_append, List.singleton_append, parseChars.eq_def]
  simp only [show (92 : ℕ) ≠ 34 by decide, hother, hv, if_false, if_true]
  cases parseChars t <;> rfl

theorem body_unicode {digits : Text} (hlength : digits.length = 4)
    (hdigits : ∀ d ∈ digits, (hexValue d).isSome = true) : Body (92 :: 117 :: digits) := by
  obtain ⟨a, b, c, d, rfl⟩ : ∃ a b c d, digits = [a, b, c, d] := by
    match digits, hlength with
    | [a, b, c, d], _ => exact ⟨a, b, c, d, rfl⟩
  obtain ⟨va, ha⟩ := Option.isSome_iff_exists.mp (hdigits a (by simp))
  obtain ⟨vb, hb⟩ := Option.isSome_iff_exists.mp (hdigits b (by simp))
  obtain ⟨vc, hc⟩ := Option.isSome_iff_exists.mp (hdigits c (by simp))
  obtain ⟨vd, hd⟩ := Option.isSome_iff_exists.mp (hdigits d (by simp))
  refine ⟨[4096 * va + 256 * vb + 16 * vc + vd], fun t => ?_⟩
  simp only [List.cons_append, List.nil_append]
  rw [parseChars.eq_def]
  simp only [show (92 : ℕ) ≠ 34 by decide, ha, hb, hc, hd, if_false, if_true]
  cases parseChars t <;> rfl

/-- A unit within a string completes what has been read of an escape, or adds to it. -/
theorem body_of_next (hok : q.Ok) (hq : q ≠ .outside) (h : q.next c = some q') :
    (q' = .outside ∧ q.read ++ [c] = [34]) ∨ (q' = .inside ∧ Body (q.read ++ [c])) ∨
      (q' ≠ .outside ∧ q'.read = q.read ++ [c]) := by
  cases q with
  | outside => exact absurd rfl hq
  | inside =>
    simp only [Place.next] at h
    split_ifs at h with hquote hslash hcontrol <;> cases h
    · rw [hquote]
      exact .inl ⟨rfl, rfl⟩
    · rw [hslash]
      exact .inr (.inr ⟨by decide, rfl⟩)
    · exact .inr (.inl ⟨rfl, body_unit hquote hslash hcontrol⟩)
  | escape =>
    simp only [Place.next] at h
    split_ifs at h with hunicode he <;> cases h
    · rw [hunicode]
      exact .inr (.inr ⟨by decide, rfl⟩)
    · exact .inr (.inl ⟨rfl, body_escape hunicode he⟩)
  | hex digits =>
    obtain ⟨hlength, hdigits⟩ := hok
    simp only [Place.next] at h
    split_ifs at h with hc hthree <;> cases h
    · refine .inr (.inl ⟨rfl, ?_⟩)
      show Body (92 :: 117 :: (digits ++ [c]))
      refine body_unicode (by simp [hthree]) fun d hd => ?_
      rcases List.mem_append.mp hd with hd | hd
      · exact hdigits d hd
      · rwa [List.mem_singleton.mp hd]
    · exact .inr (.inr ⟨by simp, rfl⟩)

/-- Whether the next unit is escaped. -/
def Place.escaped : Place → Bool
  | .escape => true
  | .outside | .inside | .hex _ => false

/-- Reading a unit that is no quotation mark does not leave the string. -/
theorem quotesIn_next (hq : q ≠ .outside) (h : q.next c = some q') (t : Text) :
    quotesIn q.escaped (c :: t) =
      (if q' = .outside then quotesIn q'.escaped t + 1 else quotesIn q'.escaped t) := by
  cases q with
  | outside => exact absurd rfl hq
  | inside =>
    simp only [Place.next] at h
    split_ifs at h with hquote hslash hcontrol <;> cases h
    · simp [Place.escaped, quotesIn, hquote]
    · simp [Place.escaped, quotesIn, hslash]
    · simp [Place.escaped, quotesIn, hquote, hslash]
  | escape =>
    simp only [Place.next] at h
    split_ifs at h <;> cases h <;> rfl
  | hex digits =>
    simp only [Place.next] at h
    split_ifs at h with hc hthree <;> cases h <;>
    · simp [Place.escaped, quotesIn, hexValue_ne hc]

/-- Without a quotation mark that ends it the string is not left. -/
theorem ne_outside_of_lex (hq : q ≠ .outside) (hquotes : quotesIn q.escaped r = 0)
    (h : lex q r = some q') :
    q' ≠ .outside := by
  induction r generalizing q with
  | nil =>
    obtain rfl := Option.some.inj h
    exact hq
  | cons c r ih =>
    obtain ⟨p, hp, hrest⟩ := Option.bind_eq_some_iff.mp h
    rw [quotesIn_next hq hp] at hquotes
    by_cases hp' : p = .outside
    · rw [if_pos hp'] at hquotes
      cases hquotes
    · rw [if_neg hp'] at hquotes
      exact ih hp' hquotes hrest

/-- What is read within a string, without a quotation mark that ends it. -/
theorem body_of_lex (hok : q.Ok) (hq : q ≠ .outside) (hquotes : quotesIn q.escaped r = 0)
    (h : lex q r = some .inside) : Body (q.read ++ r) := by
  induction r generalizing q with
  | nil =>
    obtain rfl := Option.some.inj h
    exact body_nil
  | cons c r ih =>
    obtain ⟨p, hp, hrest⟩ := Option.bind_eq_some_iff.mp h
    rw [quotesIn_next hq hp] at hquotes
    have hinside : p ≠ .outside := by
      rintro rfl
      simp at hquotes
    rw [if_neg hinside] at hquotes
    have hbody := ih (hok.next hp) hinside hquotes hrest
    rcases body_of_next hok hq hp with ⟨rfl, -⟩ | ⟨rfl, hunit⟩ | ⟨-, hread⟩
    · exact absurd rfl hinside
    · have hall := hunit.append hbody
      rwa [List.append_assoc] at hall
    · rwa [hread, List.append_assoc] at hbody

end Body

/-! ### Masked copies -/

/-- The rest of a string, the same but for what stands in it, and what follows. -/
def Inner (t t' : Text) : Prop :=
  ∃ s s' k k' u u', t = s ++ 34 :: u ∧ t' = s' ++ 34 :: u' ∧
    (∀ z, parseChars (s ++ 34 :: z) = some (k, z)) ∧
      (∀ z, parseChars (s' ++ 34 :: z) = some (k', z)) ∧
    ((skipSpace u).head? = some 58 → k' = k) ∧ Refilled u u'

/-- Two rests of a text that are read from the same place on. -/
def Joined : Place → Text → Text → Prop
  | .outside, t, t' => Refilled t t'
  | q, t, t' => Inner (q.read ++ t) (q.read ++ t')

section Joined

variable {c : ℕ} {q q' : Place} {l r t t' : Text}

theorem Joined.of_inner (hq : q ≠ .outside) : Joined q t t' ↔
    Inner (q.read ++ t) (q.read ++ t') := by
  cases q with
  | outside => exact absurd rfl hq
  | inside => rfl
  | escape => rfl
  | hex digits => rfl

/-- A stretch of a string may be exchanged where it does not belong to a key. -/
theorem Inner.edit (h : Inner t t') (hr : Body r) (hl : Body l)
    (hkey : closesKey false t = true → l = r) :
    Inner (r ++ t) (l ++ t') := by
  obtain ⟨s, s', k, k', u, u', rfl, rfl, hs, hs', hsame, hrest⟩ := h
  obtain ⟨j, hj⟩ := hr
  obtain ⟨j', hj'⟩ := hl
  refine ⟨r ++ s, l ++ s', j ++ k, j' ++ k', u, u',
    by simp, by simp, ?_, ?_, fun hcolon => ?_, hrest⟩
  · intro z
    rw [List.append_assoc, hj, hs]
    rfl
  · intro z
    rw [List.append_assoc, hj', hs']
    rfl
  · have hcloses := (chars_of_parseChars (hs u)).closesKey_eq
    obtain rfl := hkey (by rw [hcloses]; exact decide_eq_true hcolon)
    have hboth := (hj [34]).symm.trans (hj' [34])
    have hend : parseChars [34] = some ([], []) := by
      rw [parseChars.eq_def]
      rfl
    rw [hend] at hboth
    rw [hsame hcolon]
    simpa using hboth.symm

/-- A unit that is kept. -/
theorem Joined.keep (hok : q.Ok) (hnext : q.next c = some q') (h : Joined q' t t') :
    Joined q (c :: t) (c :: t') := by
  by_cases hq : q = .outside
  · subst hq
    simp only [Place.next] at hnext
    split_ifs at hnext with hquote hunit <;> cases hnext
    · subst hquote
      obtain ⟨s, s', k, k', u, u', hs, hs', hchars, hchars', hkey, hrest⟩ := h
      rw [Place.read, List.nil_append] at hs hs'
      rw [hs, hs']
      exact .string hchars hchars' hkey hrest
    · exact .unit hquote h
  · rw [Joined.of_inner hq, List.append_cons q.read c t, List.append_cons q.read c t']
    rcases body_of_next hok hq hnext with ⟨rfl, hclose⟩ | ⟨rfl, hbody⟩ | ⟨hinside, hread⟩
    · have hend : ∀ z, parseChars ([] ++ 34 :: z) = some ([], z) := fun z => by
        rw [List.nil_append, parseChars.eq_def]
        rfl
      rw [hclose]
      exact ⟨[], [], [], [], t, t', rfl, rfl, hend, hend, fun _ => rfl, h⟩
    · have hinner : Inner t t' := h
      exact hinner.edit hbody hbody fun _ => rfl
    · rw [Joined.of_inner hinside, hread] at h
      exact h

/-- What a stretch that is cut out of a text that reads as a value has to meet: it stands within a
string, no quotation mark that ends it is in it, and it is not changed in a key. -/
structure Edit (b r l x : Text) : Prop where
  place : ∀ q, lex .outside b.reverse = some q → lex q (r ++ x) = some .outside →
    q = .inside ∧ lex .inside r = some .inside
  quotes : quotesIn false r = 0
  body : Body l
  key : closesKey false x = true → l = r

/-- **A masked copy of a text that reads as a value, with masks within its strings, is a refilled
text.** -/
theorem refilled_of_masked {kept : Text → Text → Prop} {cut : Text → Text → Text → Text → Prop}
    {b b' x y : Text}
    (hcut : ∀ b r l x, cut b r l x → Edit b r l x) (h : Masking.Masked kept cut b b' x y) :
    ∀ q, lex .outside b.reverse = some q → lex q x = some .outside → Joined q x y := by
  induction h with
  | nil b b' =>
    intro q _ hq
    obtain rfl := Option.some.inj hq
    exact .nil
  | @keep b b' x y c _ _ ih =>
    intro q hb hq
    have hok : q.Ok := Place.Ok.lex (q := .outside) trivial hb
    obtain ⟨p, hp, hrest⟩ := Option.bind_eq_some_iff.mp hq
    refine Joined.keep hok hp (ih p ?_ hrest)
    rw [List.reverse_cons, lex_append, hb, Option.bind_some, lex_cons, hp]
    rfl
  | @mask b b' r l x y hmask _ ih =>
    intro q hb hq
    obtain ⟨hplace, hquotes, hbody, hkey⟩ := hcut _ _ _ _ hmask
    obtain ⟨rfl, hr⟩ := hplace q hb hq
    rw [lex_append, hr, Option.bind_some] at hq
    have hbehind : lex .outside (r.reverse ++ b).reverse = some .inside := by
      rw [List.reverse_append, List.reverse_reverse, lex_append, hb]
      exact hr
    have hinner : Inner x y := ih .inside hbehind hq
    have hstretch : Body r := body_of_lex (q := .inside) trivial (by decide) hquotes hr
    exact hinner.edit hstretch hbody hkey

end Joined

end Json

end Ecma

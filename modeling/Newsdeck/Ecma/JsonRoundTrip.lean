import Newsdeck.Ecma.Json
import Mathlib.Data.Nat.Digits.Lemmas
import Mathlib.Tactic.IntervalCases
import Mathlib.Tactic.NormNum
import Mathlib.Tactic.Positivity

/-!
# What `JSON.stringify` writes, `JSON.parse` reads back

The round trip for every value whose numbers are natural numbers below `2 ^ 53`
(`parse_stringify`).  A numeral in front of a unit that could prolong it would be read wrongly, so
the induction runs over the writer with the rest of the text as a parameter: what follows a value
`Closes`, and in particular `Stops` a numeral.

* `parseNumber_decimal` — a decimal numeral, through the rounding to binary64;
* `parseChars_quoteUnits` — a string, with its escapes and lone surrogates;
* `parseValue_write` — a value at any depth, with enough fuel; `depth_le_length` says that the
  length of the text is enough.
-/

namespace Ecma

namespace Json

/-! ### Numbers -/

theorem digitsValue_append_singleton (ds : Text) (c : ℕ) :
    digitsValue (ds ++ [c]) = 10 * digitsValue ds + (c - 48) := by
  simp [digitsValue]

theorem digitsValue_decimal (n : ℕ) : digitsValue (decimal n) = n := by
  unfold decimal
  split
  · rename_i h
    rw [h]
    rfl
  · have key : ∀ ds : List ℕ, digitsValue (ds.map (· + 48)).reverse = Nat.ofDigits 10 ds := by
      intro ds
      induction ds with
      | nil => rfl
      | cons d ds ih =>
        rw [List.map_cons, List.reverse_cons, digitsValue_append_singleton, ih, Nat.ofDigits_cons]
        simp
        omega
    rw [key, Nat.ofDigits_digits]

theorem isDigit_decimal {n c : ℕ} (h : c ∈ decimal n) : isDigit c = true := by
  have := decimal_digit h
  simp [isDigit]
  omega

/-- Only the numeral of zero starts with a zero. -/
theorem decimal_head_zero {n : ℕ} (h : (decimal n).head? = some 48) : decimal n = [48] := by
  unfold decimal at h ⊢
  split
  · rfl
  · rename_i hn
    rw [if_neg hn, List.head?_reverse, List.getLast?_map] at h
    have hlast := Nat.getLast_digit_ne_zero 10 hn
    rw [List.getLast?_eq_some_getLast (Nat.digits_ne_nil_iff_ne_zero.mpr hn)] at h
    simp only [Option.map_some, Option.some.injEq] at h
    exact absurd (by simpa using h) hlast

/-- What may follow a numeral without prolonging it. -/
def Stops (rest : Text) : Prop :=
  ∀ c ∈ rest.head?, isDigit c = false ∧ c ≠ 46 ∧ c ≠ 101 ∧ c ≠ 69

theorem takeWhile_decimal {n : ℕ} {rest : Text} (h : Stops rest) :
    (decimal n ++ rest).takeWhile isDigit = decimal n ∧
      (decimal n ++ rest).dropWhile isDigit = rest := by
  have hd : ∀ c ∈ decimal n, isDigit c = true := fun c hc => isDigit_decimal hc
  have hr : rest.takeWhile isDigit = [] ∧ rest.dropWhile isDigit = rest := by
    cases rest with
    | nil => simp
    | cons c rest => simp [(h c (by simp)).1]
  rw [List.takeWhile_append_of_pos hd, List.dropWhile_append_of_pos hd, hr.1, hr.2]
  simp

theorem roundHalfEven_intCast (z : ℤ) : roundHalfEven z = z := by
  unfold roundHalfEven
  simp

theorem doubleOf_natCast {n : ℕ} (h : n < 2 ^ 53) : doubleOf n = some (n : ℚ) := by
  have hlog : Nat.log 2 n ≤ 52 := by
    rcases Nat.eq_zero_or_pos n with rfl | hn
    · simp
    · exact Nat.lt_succ_iff.mp (Nat.log_lt_of_lt_pow hn.ne' h)
  obtain ⟨k, hk⟩ : ∃ k : ℕ, max (-1074 : ℤ) (Int.log 2 |(n : ℚ)| - 52) = -(k : ℤ) := by
    refine ⟨52 - Nat.log 2 n, ?_⟩
    rw [Nat.abs_cast, Int.log_natCast]
    omega
  have hscaled : |(n : ℚ)| / 2 ^ (-(k : ℤ)) = ((n * 2 ^ k : ℤ) : ℚ) := by
    rw [Nat.abs_cast, zpow_neg, zpow_natCast, div_inv_eq_mul]
    push_cast
    rfl
  have hback : ((n * 2 ^ k : ℤ) : ℚ) * 2 ^ (-(k : ℤ)) = n := by
    rw [zpow_neg, zpow_natCast]
    push_cast
    rw [mul_assoc, mul_inv_cancel₀ (by positivity), mul_one]
  have hsmall : ¬ (2 : ℚ) ^ 1024 ≤ n := by
    rw [not_le]
    calc (n : ℚ) < 2 ^ 53 := by exact_mod_cast h
      _ ≤ 2 ^ 1024 := pow_le_pow_right₀ (by norm_num) (by norm_num)
  have hpos : ¬ (n : ℚ) < 0 := not_lt.mpr (Nat.cast_nonneg n)
  unfold doubleOf
  simp only [hk, hscaled, roundHalfEven_intCast, hback, hsmall, hpos, if_false]

theorem parseNumber_decimal {n : ℕ} {rest : Text} (hn : n < 2 ^ 53) (h : Stops rest) :
    parseNumber (decimal n ++ rest) = some (.num n, rest) := by
  obtain ⟨htake, hdrop⟩ := takeWhile_decimal (n := n) h
  have hsign : (decimal n ++ rest).head? ≠ some 45 := by
    intro hc
    rw [List.head?_append_of_ne_nil _ (decimal_ne_nil n)] at hc
    have := decimal_digit (List.mem_of_mem_head? hc)
    omega
  have hint : parseInt (decimal n ++ rest) = some (decimal n, rest) := by
    unfold parseInt
    rw [htake, hdrop]
    have hzero : ¬ ((decimal n).head? = some 48 ∧ 1 < (decimal n).length) := by
      rintro ⟨hhead, hlen⟩
      rw [decimal_head_zero hhead] at hlen
      exact absurd hlen (by decide)
    simp [decimal_ne_nil, hzero]
  have hfrac : parseFraction rest = some ([], rest) := by
    unfold parseFraction
    split
    · rename_i t
      exact absurd rfl (h 46 (by simp)).2.1
    · rfl
  have hexp : parseExponent rest = some (0, rest) := by
    unfold parseExponent
    split
    · rename_i c t
      have hc := h c (by simp)
      rw [if_neg (by simp [hc.2.2.1, hc.2.2.2])]
    · rfl
  unfold parseNumber
  simp only [hsign, if_false, Option.bind_eq_bind, Option.bind_some, hint, hfrac, hexp,
    List.append_nil, digitsValue_decimal, List.length_nil, Nat.cast_zero, sub_zero, zpow_zero,
    mul_one, doubleOf_natCast hn, ofDouble]

/-! ### Strings -/

theorem hexValue_hexDigit {d : ℕ} (h : d < 16) : hexValue (hexDigit d) = some d := by
  interval_cases d <;> rfl

theorem parseChars_unicodeEscape {c : ℕ} (h : c < 65536) (t : Text) :
    parseChars (unicodeEscape c ++ t) = (parseChars t).map fun p => (c :: p.1, p.2) := by
  have hc : 4096 * (c / 4096 % 16) + 256 * (c / 256 % 16) + 16 * (c / 16 % 16) + c % 16 = c := by
    omega
  unfold unicodeEscape
  rw [List.cons_append, List.cons_append, parseChars.eq_def]
  simp only [List.cons_append, List.nil_append, hexValue_hexDigit (Nat.mod_lt _ (by decide : 16 > 0))]
  cases h : parseChars t <;> simp [hc]

theorem parseChars_escapeUnit (c : ℕ) (t : Text) :
    parseChars (escapeUnit c ++ t) = (parseChars t).map fun p => (c :: p.1, p.2) := by
  by_cases hplain : 32 ≤ c ∧ c ≠ 34 ∧ c ≠ 92
  · have hself : escapeUnit c = [c] := by
      unfold escapeUnit
      split_ifs <;> first | rfl | omega
    rw [hself, List.singleton_append, parseChars.eq_def]
    have h32 : ¬ c < 32 := by omega
    simp only [hplain.2.1, hplain.2.2, h32, if_false]
    cases parseChars t <;> rfl
  · by_cases hnum : c < 32 ∧ c ≠ 8 ∧ c ≠ 12 ∧ c ≠ 10 ∧ c ≠ 13 ∧ c ≠ 9
    · have hself : escapeUnit c = unicodeEscape c := by
        unfold escapeUnit
        split_ifs <;> first | rfl | omega
      rw [hself]
      exact parseChars_unicodeEscape (by omega) t
    · have hcases : c = 34 ∨ c = 92 ∨ c = 8 ∨ c = 12 ∨ c = 10 ∨ c = 13 ∨ c = 9 := by omega
      rcases hcases with rfl | rfl | rfl | rfl | rfl | rfl | rfl <;>
        rw [parseChars.eq_def] <;> simp [escapeUnit, unescape] <;> cases parseChars t <;> rfl

/-- Reading a surrogate leaves it as it is. -/
theorem parseChars_self {c : ℕ} (h : 93 ≤ c) (t : Text) :
    parseChars (c :: t) = (parseChars t).map fun p => (c :: p.1, p.2) := by
  rw [parseChars.eq_def]
  have h34 : c ≠ 34 := by omega
  have h92 : c ≠ 92 := by omega
  have h32 : ¬ c < 32 := by omega
  simp only [h34, h92, h32, if_false]
  cases parseChars t <;> rfl

theorem isHighSurrogate_bounds {c : ℕ} (h : isHighSurrogate c = true) : 93 ≤ c ∧ c < 65536 := by
  simp only [isHighSurrogate, Bool.and_eq_true, decide_eq_true_eq] at h
  omega

theorem isLowSurrogate_bounds {c : ℕ} (h : isLowSurrogate c = true) : 93 ≤ c ∧ c < 65536 := by
  simp only [isLowSurrogate, Bool.and_eq_true, decide_eq_true_eq] at h
  omega

theorem parseChars_quoteUnits (t rest : Text) :
    parseChars (quoteUnits t ++ 34 :: rest) = some (t, rest) := by
  have hend : parseChars (34 :: rest) = some ([], rest) := by
    rw [parseChars.eq_def]
    rfl
  induction t using quoteUnits.induct with
  | case1 => exact hend
  | case2 c hc d u hd ih =>
    rw [quoteUnits, if_pos hc, if_pos hd, List.cons_append, List.cons_append, parseChars_self (isHighSurrogate_bounds hc).1,
      parseChars_self (isLowSurrogate_bounds hd).1, ih]
    rfl
  | case3 c hc d u hd ih =>
    rw [quoteUnits, if_pos hc, if_neg hd, List.append_assoc, parseChars_unicodeEscape (isHighSurrogate_bounds hc).2, ih]
    rfl
  | case4 c hc =>
    rw [quoteUnits, if_pos hc, parseChars_unicodeEscape (isHighSurrogate_bounds hc).2, hend]
    rfl
  | case5 c t hc hd ih =>
    rw [quoteUnits.eq_def]
    simp only [hc, hd, if_true, Bool.false_eq_true, if_false]
    rw [List.append_assoc, parseChars_unicodeEscape (isLowSurrogate_bounds hd).2, ih]
    rfl
  | case6 c t hc hd ih =>
    rw [quoteUnits.eq_def]
    simp only [hc, hd, Bool.false_eq_true, if_false]
    rw [List.append_assoc, parseChars_escapeUnit, ih]
    rfl

theorem parseChars_quote (t rest : Text) :
    ∃ body, quote t ++ rest = 34 :: body ∧ parseChars body = some (t, rest) :=
  ⟨quoteUnits t ++ 34 :: rest, by simp [quote], parseChars_quoteUnits t rest⟩


/-! ### Values -/

mutual

/-- Every number in the value is a natural number a double holds exactly. -/
def Plain : Json → Prop
  | .num v => ∃ n : ℕ, v = n ∧ n < 2 ^ 53
  | .infinite => False
  | .arr vs => PlainItems vs
  | .obj ms => PlainMembers ms
  | .null | .bool _ | .str _ => True

def PlainItems : List Json → Prop
  | [] => True
  | v :: vs => Plain v ∧ PlainItems vs

def PlainMembers : List (Text × Json) → Prop
  | [] => True
  | (_, v) :: ms => Plain v ∧ PlainMembers ms

end

mutual

/-- The nesting calls the reader makes on a value. -/
def depth : Json → ℕ
  | .arr vs => depthItems vs + 1
  | .obj ms => depthMembers ms + 1
  | .null | .bool _ | .num _ | .infinite | .str _ => 1

def depthItems : List Json → ℕ
  | [] => 0
  | v :: vs => max (depth v) (depthItems vs) + 1

def depthMembers : List (Text × Json) → ℕ
  | [] => 0
  | (_, v) :: ms => max (depth v) (depthMembers ms) + 1

end

theorem skipSpace_append {ws : Text} (h : ∀ c ∈ ws, isSpace c = true) (t : Text) :
    skipSpace (ws ++ t) = skipSpace t :=
  List.dropWhile_append_of_pos h

theorem parseValue_skip {ws : Text} (h : ∀ c ∈ ws, isSpace c = true) (n : ℕ) (t : Text) :
    parseValue n (ws ++ t) = parseValue n t := by
  cases n with
  | zero => rfl
  | succ n => rw [parseValue, parseValue, skipSpace_append h]

theorem parseItems_skip {ws : Text} (h : ∀ c ∈ ws, isSpace c = true) (n : ℕ) (t : Text) :
    parseItems n (ws ++ t) = parseItems n t := by
  cases n with
  | zero => rfl
  | succ n => rw [parseItems, parseItems, parseValue_skip h]

theorem parseMembers_skip {ws : Text} (h : ∀ c ∈ ws, isSpace c = true) (n : ℕ) (t : Text) :
    parseMembers n (ws ++ t) = parseMembers n t := by
  cases n with
  | zero => rfl
  | succ n => rw [parseMembers, parseMembers, skipSpace_append h]

theorem isSpace_newlineAt (gap d : ℕ) : ∀ c ∈ newlineAt gap d, isSpace c = true := by
  unfold newlineAt
  split
  · simp
  · intro c hc
    rcases List.mem_cons.mp hc with rfl | hc
    · rfl
    · rw [List.eq_of_mem_replicate hc]
      rfl

/-- What the writer puts behind a value: blanks and then a comma or a closing bracket, or nothing. -/
def Closes (rest : Text) : Prop := ∀ c ∈ rest.head?, c = 44 ∨ c = 93 ∨ c = 125 ∨ c = 10

theorem Closes.stops {rest : Text} (h : Closes rest) : Stops rest := by
  intro c hc
  rcases h c hc with rfl | rfl | rfl | rfl <;> decide

theorem closes_newlineAt {rest : Text} (gap d : ℕ) (h : Closes rest) :
    Closes (newlineAt gap d ++ rest) := by
  unfold newlineAt
  split
  · exact h
  · intro c hc
    simp only [List.cons_append, List.head?_cons, Option.mem_some_iff] at hc
    exact .inr (.inr (.inr hc.symm))

theorem closes_cons {c : ℕ} (h : c = 44 ∨ c = 93 ∨ c = 125) (rest : Text) : Closes (c :: rest) := by
  intro d hd
  simp only [List.head?_cons, Option.mem_some_iff] at hd
  subst hd
  tauto

theorem numeral_natCast [Host] {n : ℕ} (h : n < 2 ^ 53) : numeral (n : ℚ) = decimal n := by
  unfold numeral
  rw [if_pos ⟨by simp, by simp; omega⟩, if_neg (by simp)]
  simp

theorem parseValue_numeral {n m : ℕ} {rest : Text} (hn : n < 2 ^ 53) (h : Stops rest) :
    parseValue (m + 1) (decimal n ++ rest) = some (.num n, rest) := by
  obtain ⟨c, t, hct⟩ := List.exists_cons_of_ne_nil (decimal_ne_nil n)
  have hc : 48 ≤ c ∧ c < 58 := decimal_digit (n := n) (by rw [hct]; simp)
  have hskip : skipSpace (decimal n ++ rest) = c :: (t ++ rest) := by
    rw [hct, List.cons_append, skipSpace, List.dropWhile_cons_of_neg]
    simp [isSpace]
    omega
  have hlit : ∀ (s : Text) (d : ℕ), 58 ≤ d → (d :: s).isPrefixOf (c :: (t ++ rest)) = false := by
    intro s d hd
    have hne : d ≠ c := by omega
    simp [List.isPrefixOf, hne]
  have h123 : c ≠ 123 := by omega
  have h91 : c ≠ 91 := by omega
  have h34 : c ≠ 34 := by omega
  have htrue : (lit "true").isPrefixOf (c :: (t ++ rest)) = false := hlit _ 116 (by decide)
  have hfalse : (lit "false").isPrefixOf (c :: (t ++ rest)) = false := hlit _ 102 (by decide)
  have hnull : (lit "null").isPrefixOf (c :: (t ++ rest)) = false := hlit _ 110 (by decide)
  rw [parseValue, hskip]
  simp only [h123, h91, h34, if_false, htrue, hfalse, hnull, Bool.false_eq_true]
  rw [← List.cons_append, ← hct]
  exact parseNumber_decimal hn h

theorem parseValue_quote (n : ℕ) (t rest : Text) :
    parseValue (n + 1) (quote t ++ rest) = some (.str t, rest) := by
  obtain ⟨body, hbody, hparse⟩ := parseChars_quote t rest
  rw [hbody, parseValue]
  have hskip : skipSpace (34 :: body) = 34 :: body := rfl
  rw [hskip]
  simp [hparse]


section RoundTrip

variable [Host]

/-- A written value starts with a unit that is neither a blank nor a closing bracket. -/
theorem write_head (gap d : ℕ) (v : Json) (h : Plain v) :
    ∃ c t, write gap d v = c :: t ∧ isSpace c = false ∧ c ≠ 93 := by
  match v, h with
  | .null, _ => exact ⟨110, _, rfl, rfl, by decide⟩
  | .bool true, _ => exact ⟨116, _, rfl, rfl, by decide⟩
  | .bool false, _ => exact ⟨102, _, rfl, rfl, by decide⟩
  | .num v, h =>
    simp only [Plain] at h
    obtain ⟨n, rfl, hn⟩ := h
    obtain ⟨c, t, hct⟩ := List.exists_cons_of_ne_nil (decimal_ne_nil n)
    have hc : 48 ≤ c ∧ c < 58 := decimal_digit (n := n) (by rw [hct]; simp)
    refine ⟨c, t, by rw [write, numeral_natCast hn, hct], ?_, by omega⟩
    simp [isSpace]
    omega
  | .str t, _ => exact ⟨34, _, rfl, rfl, by decide⟩
  | .arr [], _ => exact ⟨91, _, rfl, rfl, by decide⟩
  | .arr (_ :: _), _ => exact ⟨91, _, by rw [write]; rfl, rfl, by decide⟩
  | .obj [], _ => exact ⟨123, _, rfl, rfl, by decide⟩
  | .obj ((_, _) :: _), _ => exact ⟨123, _, by rw [write]; rfl, rfl, by decide⟩

omit [Host] in
theorem skipSpace_of_not_space {c : ℕ} (h : isSpace c = false) (t : Text) :
    skipSpace (c :: t) = c :: t :=
  List.dropWhile_cons_of_neg (by simp [h])

omit [Host] in
/-- Behind an opening bracket that no closing one follows stand the items. -/
theorem parseValue_arr {n c : ℕ} {r t : Text} (h : skipSpace r = c :: t) (hc : c ≠ 93) :
    parseValue (n + 1) (91 :: r) = (parseItems n (c :: t)).map fun p => (.arr p.1, p.2) := by
  have hskip : skipSpace (91 :: r) = 91 :: r := rfl
  rw [parseValue, hskip]
  simp only [h, if_true, show (91 : ℕ) ≠ 123 by decide, if_false]
  split
  · rename_i heq
    exact absurd (List.cons.inj heq).1 hc
  · rfl

omit [Host] in
/-- Behind an opening brace and a quotation mark stand the members. -/
theorem parseValue_obj {n : ℕ} {r t : Text} (h : skipSpace r = 34 :: t) :
    parseValue (n + 1) (123 :: r) = (parseMembers n (34 :: t)).map fun p => (.obj p.1, p.2) := by
  have hskip : skipSpace (123 :: r) = 123 :: r := rfl
  rw [parseValue, hskip]
  simp only [h, if_true]

omit [Host] in
/-- The last item. -/
theorem parseItems_last {n : ℕ} {v : Json} {t r rest : Text} (hv : parseValue n t = some (v, r))
    (hr : skipSpace r = 93 :: rest) : parseItems (n + 1) t = some ([v], rest) := by
  rw [parseItems, hv]
  simp only [Option.bind_eq_bind, Option.bind_some, hr]

omit [Host] in
/-- An item with others behind it. -/
theorem parseItems_more {n : ℕ} {v : Json} {vs : List Json} {t r u rest : Text}
    (hv : parseValue n t = some (v, r)) (hr : skipSpace r = 44 :: u)
    (hvs : parseItems n u = some (vs, rest)) : parseItems (n + 1) t = some (v :: vs, rest) := by
  rw [parseItems, hv]
  simp only [Option.bind_eq_bind, Option.bind_some, hr, hvs]

omit [Host] in
/-- Reading a key and its colon leaves the text of the value, up to blanks. -/
theorem colon_blank (gap : ℕ) (t : Text) :
    ∃ ws, (∀ c ∈ ws, isSpace c = true) ∧ skipSpace (colon gap ++ t) = 58 :: (ws ++ t) := by
  unfold colon
  split
  · exact ⟨[], by simp, rfl⟩
  · exact ⟨[32], by simp [isSpace], rfl⟩

omit [Host] in
/-- The last member. -/
theorem parseMembers_last {n gap : ℕ} {k : Text} {v : Json} {t r rest : Text}
    (hv : parseValue n t = some (v, r)) (hr : skipSpace r = 125 :: rest) :
    parseMembers (n + 1) (quote k ++ (colon gap ++ t)) = some ([(k, v)], rest) := by
  obtain ⟨body, hbody, hparse⟩ := parseChars_quote k (colon gap ++ t)
  obtain ⟨ws, hws, hcolon⟩ := colon_blank gap t
  rw [hbody, parseMembers, skipSpace_of_not_space rfl]
  simp only [Option.bind_eq_bind, hparse, Option.bind_some, hcolon, parseValue_skip hws, hv, hr]

omit [Host] in
/-- A member with others behind it. -/
theorem parseMembers_more {n gap : ℕ} {k : Text} {v : Json} {ms : List (Text × Json)}
    {t r u rest : Text} (hv : parseValue n t = some (v, r)) (hr : skipSpace r = 44 :: u)
    (hms : parseMembers n u = some (ms, rest)) :
    parseMembers (n + 1) (quote k ++ (colon gap ++ t)) = some ((k, v) :: ms, rest) := by
  obtain ⟨body, hbody, hparse⟩ := parseChars_quote k (colon gap ++ t)
  obtain ⟨ws, hws, hcolon⟩ := colon_blank gap t
  rw [hbody, parseMembers, skipSpace_of_not_space rfl]
  simp only [Option.bind_eq_bind, hparse, Option.bind_some, hcolon, parseValue_skip hws, hv, hr,
    hms]

mutual

theorem parseValue_write (gap : ℕ) : ∀ (v : Json) (d n : ℕ) (rest : Text), Plain v → depth v ≤ n →
    Closes rest → parseValue n (write gap d v ++ rest) = some (v, rest)
  | .null, d, n + 1, rest, _, _, _ => rfl
  | .bool true, d, n + 1, rest, _, _, _ => rfl
  | .bool false, d, n + 1, rest, _, _, _ => rfl
  | .num v, d, n + 1, rest, h, _, hrest => by
    simp only [Plain] at h
    obtain ⟨m, rfl, hm⟩ := h
    rw [write, numeral_natCast hm]
    exact parseValue_numeral hm hrest.stops
  | .str t, d, n + 1, rest, _, _, _ => parseValue_quote n t rest
  | .arr [], d, n + 1, rest, _, _, _ => rfl
  | .arr (v :: vs), d, n + 1, rest, h, hn, _ => by
    simp only [Plain] at h
    have hitems := parseItems_write gap (v :: vs) (d + 1) d n rest h
      (by simp only [depth] at hn; omega) v vs rfl
    obtain ⟨c, t, hct, hspace, h93⟩ := write_head gap (d + 1) v h.1
    have htext : write gap d (.arr (v :: vs)) ++ rest = 91 :: (newlineAt gap (d + 1) ++
        (write gap (d + 1) v ++ (writeItems gap (d + 1) vs ++ (newlineAt gap d ++ 93 :: rest)))) := by
      simp [write]
    rw [hct, List.cons_append] at hitems htext
    rw [htext, parseValue_arr (c := c) ?_ h93, hitems]
    · rfl
    · rw [skipSpace_append (isSpace_newlineAt gap (d + 1)), skipSpace_of_not_space hspace]
  | .obj [], d, n + 1, rest, _, _, _ => rfl
  | .obj ((k, v) :: ms), d, n + 1, rest, h, hn, _ => by
    simp only [Plain] at h
    have hmembers := parseMembers_write gap ((k, v) :: ms) (d + 1) d n rest h
      (by simp only [depth] at hn; omega) k v ms rfl
    have htext : write gap d (.obj ((k, v) :: ms)) ++ rest = 123 :: (newlineAt gap (d + 1) ++
        (quote k ++ (colon gap ++ (write gap (d + 1) v ++ (writeMembers gap (d + 1) ms ++
          (newlineAt gap d ++ 125 :: rest)))))) := by
      simp [write]
    obtain ⟨body, hbody, -⟩ := parseChars_quote k (colon gap ++ (write gap (d + 1) v ++
      (writeMembers gap (d + 1) ms ++ (newlineAt gap d ++ 125 :: rest))))
    rw [hbody] at hmembers htext
    rw [htext, parseValue_obj (t := body) ?_, hmembers]
    · rfl
    · rw [skipSpace_append (isSpace_newlineAt gap (d + 1)), skipSpace_of_not_space rfl]
  | v, d, 0, rest, _, hn, _ => by
    cases v <;> simp [depth] at hn

theorem parseItems_write (gap : ℕ) : ∀ (vs : List Json) (d d' n : ℕ) (rest : Text),
    PlainItems vs → depthItems vs ≤ n → ∀ v us, vs = v :: us →
    parseItems n (write gap d v ++ (writeItems gap d us ++ (newlineAt gap d' ++ 93 :: rest))) =
      some (vs, rest)
  | [], _, _, _, _, _, _, _, _, h => by cases h
  | [v], d, d', n + 1, rest, h, hn, _, _, rfl => by
    have hv := parseValue_write gap v d n (newlineAt gap d' ++ 93 :: rest) h.1
      (by simp only [depthItems] at hn; omega)
      (closes_newlineAt gap d' (closes_cons (.inr (.inl rfl)) rest))
    rw [writeItems, List.nil_append]
    refine parseItems_last hv ?_
    rw [skipSpace_append (isSpace_newlineAt gap d'), skipSpace_of_not_space rfl]
  | v :: w :: us, d, d', n + 1, rest, h, hn, _, _, rfl => by
    have hvs := parseItems_write gap (w :: us) d d' n rest h.2
      (by simp only [depthItems] at hn ⊢; omega) w us rfl
    have htext : writeItems gap d (w :: us) ++ (newlineAt gap d' ++ 93 :: rest) =
        44 :: (newlineAt gap d ++
          (write gap d w ++ (writeItems gap d us ++ (newlineAt gap d' ++ 93 :: rest)))) := by
      simp [writeItems]
    have hv := parseValue_write gap v d n
      (writeItems gap d (w :: us) ++ (newlineAt gap d' ++ 93 :: rest)) h.1
      (by simp only [depthItems] at hn; omega) (by rw [htext]; exact closes_cons (.inl rfl) _)
    refine parseItems_more hv (by rw [htext, skipSpace_of_not_space rfl]) ?_
    rw [parseItems_skip (isSpace_newlineAt gap d), hvs]
  | v :: us, d, d', 0, rest, h, hn, _, _, rfl => by simp [depthItems] at hn

theorem parseMembers_write (gap : ℕ) : ∀ (ms : List (Text × Json)) (d d' n : ℕ) (rest : Text),
    PlainMembers ms → depthMembers ms ≤ n → ∀ k v us, ms = (k, v) :: us →
    parseMembers n (quote k ++ (colon gap ++ (write gap d v ++ (writeMembers gap d us ++
      (newlineAt gap d' ++ 125 :: rest))))) = some (ms, rest)
  | [], _, _, _, _, _, _, _, _, _, h => by cases h
  | [(k, v)], d, d', n + 1, rest, h, hn, _, _, _, rfl => by
    have hv := parseValue_write gap v d n (newlineAt gap d' ++ 125 :: rest) h.1
      (by simp only [depthMembers] at hn; omega)
      (closes_newlineAt gap d' (closes_cons (.inr (.inr rfl)) rest))
    rw [writeMembers, List.nil_append]
    refine parseMembers_last hv ?_
    rw [skipSpace_append (isSpace_newlineAt gap d'), skipSpace_of_not_space rfl]
  | (k, v) :: (l, w) :: us, d, d', n + 1, rest, h, hn, _, _, _, rfl => by
    have hms := parseMembers_write gap ((l, w) :: us) d d' n rest h.2
      (by simp only [depthMembers] at hn ⊢; omega) l w us rfl
    have htext : writeMembers gap d ((l, w) :: us) ++ (newlineAt gap d' ++ 125 :: rest) =
        44 :: (newlineAt gap d ++ (quote l ++ (colon gap ++ (write gap d w ++
          (writeMembers gap d us ++ (newlineAt gap d' ++ 125 :: rest)))))) := by
      simp [writeMembers]
    have hv := parseValue_write gap v d n
      (writeMembers gap d ((l, w) :: us) ++ (newlineAt gap d' ++ 125 :: rest)) h.1
      (by simp only [depthMembers] at hn; omega) (by rw [htext]; exact closes_cons (.inl rfl) _)
    refine parseMembers_more hv (by rw [htext, skipSpace_of_not_space rfl]) ?_
    rw [parseMembers_skip (isSpace_newlineAt gap d), hms]
  | v :: us, d, d', 0, rest, h, hn, _, _, _, _ => by simp [depthMembers] at hn

end

/-! ### The whole text -/

mutual

theorem depth_le_length (gap : ℕ) : ∀ (v : Json) (d : ℕ), Plain v →
    depth v ≤ (write gap d v).length
  | .null, _, _ => show 1 ≤ (lit "null").length by decide
  | .bool true, _, _ => show 1 ≤ (lit "true").length by decide
  | .bool false, _, _ => show 1 ≤ (lit "false").length by decide
  | .num v, d, h => by
    simp only [Plain] at h
    obtain ⟨n, rfl, hn⟩ := h
    rw [write, numeral_natCast hn]
    exact List.length_pos_iff.mpr (decimal_ne_nil n)
  | .str t, d, _ => by simp [write, quote, depth]
  | .arr [], d, _ => by simp [write, depth, depthItems, lit]
  | .arr (v :: vs), d, h => by
    have hitems := depthItems_le_length gap (v :: vs) (d + 1) h v vs rfl
    simp only [write, depth, List.length_append, List.length_cons]
    omega
  | .obj [], d, _ => by simp [write, depth, depthMembers]
  | .obj ((k, v) :: ms), d, h => by
    have hmembers := depthMembers_le_length gap ((k, v) :: ms) (d + 1) h k v ms rfl
    simp only [write, depth, List.length_append, List.length_cons]
    omega

theorem depthItems_le_length (gap : ℕ) : ∀ (vs : List Json) (d : ℕ), PlainItems vs →
    ∀ v us, vs = v :: us →
    depthItems vs ≤ (write gap d v).length + (writeItems gap d us).length + 1
  | [], _, _, _, _, h => by cases h
  | [v], d, h, _, _, rfl => by
    have hv := depth_le_length gap v d h.1
    simp only [depthItems, writeItems]
    omega
  | v :: w :: us, d, h, _, _, rfl => by
    have hv := depth_le_length gap v d h.1
    have hvs := depthItems_le_length gap (w :: us) d h.2 w us rfl
    simp only [depthItems, writeItems, List.length_append, List.length_cons] at *
    omega

theorem depthMembers_le_length (gap : ℕ) : ∀ (ms : List (Text × Json)) (d : ℕ), PlainMembers ms →
    ∀ k v us, ms = (k, v) :: us →
    depthMembers ms ≤ (write gap d v).length + (writeMembers gap d us).length + 1
  | [], _, _, _, _, _, h => by cases h
  | [(k, v)], d, h, _, _, _, rfl => by
    have hv := depth_le_length gap v d h.1
    simp only [depthMembers, writeMembers]
    omega
  | (k, v) :: (l, w) :: us, d, h, _, _, _, rfl => by
    have hv := depth_le_length gap v d h.1
    have hms := depthMembers_le_length gap ((l, w) :: us) d h.2 l w us rfl
    simp only [depthMembers, writeMembers, List.length_append, List.length_cons] at *
    omega

end

/-- **Writing and reading.**  A value whose numbers are exact natural numbers is read back as it
was written. -/
theorem parse_stringify (gap : ℕ) (v : Json) (h : Plain v) : parse (stringify gap v) = some v := by
  have hlen := depth_le_length gap v 0 h
  have hparse := parseValue_write gap v 0 ((write gap 0 v).length + 1) [] h (by omega)
    (by intro c hc; simp at hc)
  rw [List.append_nil] at hparse
  unfold parse stringify
  rw [hparse]
  rfl

/-- The same for a file that ends its only line. -/
theorem parse_stringify_line (gap : ℕ) (v : Json) (h : Plain v) :
    parse (stringify gap v ++ [10]) = some v := by
  have hlen := depth_le_length gap v 0 h
  have hcloses : Closes [10] := by
    intro c hc
    simp only [List.head?_cons, Option.mem_some_iff] at hc
    exact .inr (.inr (.inr hc.symm))
  have hparse := parseValue_write gap v 0 ((write gap 0 v ++ [10]).length + 1) [10] h
    (by rw [List.length_append]; omega) hcloses
  unfold parse stringify
  rw [hparse]
  rfl

end RoundTrip

end Json

end Ecma

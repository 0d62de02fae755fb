import Newsdeck.Ecma.JsonRoundTrip

/-!
# Rounding keeps the order

A natural number is read as the double nearest to it.  Two of them can be read as one double; what is
larger is never read as less.

* `roundHalfEven_mono` — rounding to an integer keeps the order;
* `doubleOf_natCast_eq` — the double nearest to a natural number, in integers;
* `numberOfDigits_decimal_mono` — numbers written in decimal digits are read in their order.
-/

namespace Ecma.Json

theorem floor_le_roundHalfEven (q : ℚ) : ⌊q⌋ ≤ roundHalfEven q := by
  unfold roundHalfEven
  dsimp only
  split_ifs <;> omega

theorem roundHalfEven_le_floor_add_one (q : ℚ) : roundHalfEven q ≤ ⌊q⌋ + 1 := by
  unfold roundHalfEven
  dsimp only
  split_ifs <;> omega

theorem roundHalfEven_mono {q r : ℚ} (h : q ≤ r) : roundHalfEven q ≤ roundHalfEven r := by
  rcases (Int.floor_mono h).lt_or_eq with hlt | heq
  · calc roundHalfEven q ≤ ⌊q⌋ + 1 := roundHalfEven_le_floor_add_one q
      _ ≤ ⌊r⌋ := hlt
      _ ≤ roundHalfEven r := floor_le_roundHalfEven r
  · -- within one unit the fractional parts decide
    have hfrac : q - ⌊q⌋ ≤ r - ⌊r⌋ := by
      rw [heq]
      exact sub_le_sub_right h _
    unfold roundHalfEven
    dsimp only
    rw [heq] at hfrac ⊢
    split_ifs <;> first | omega | (exfalso; linarith)

theorem roundHalfEven_le_pow {q : ℚ} {n : ℕ} (h : q ≤ 2 ^ n) : roundHalfEven q ≤ 2 ^ n := by
  have hround := roundHalfEven_mono (r := ((2 ^ n : ℤ) : ℚ)) (by exact_mod_cast h)
  rwa [roundHalfEven_intCast] at hround

theorem pow_le_roundHalfEven {q : ℚ} {n : ℕ} (h : 2 ^ n ≤ q) : 2 ^ n ≤ roundHalfEven q := by
  have hround := roundHalfEven_mono (q := ((2 ^ n : ℤ) : ℚ)) (by exact_mod_cast h)
  rwa [roundHalfEven_intCast] at hround

/-! ### Natural numbers -/

/-- The exponent of the last binary digit a double keeps of the number. -/
def lastPlace (n : ℕ) : ℕ := Nat.log 2 n - 52

/-- The integer nearest to `n` that a double can hold. -/
def nearest (n : ℕ) : ℤ := roundHalfEven (n / 2 ^ lastPlace n) * 2 ^ lastPlace n

theorem nearest_le (n : ℕ) : nearest n ≤ 2 ^ (Nat.log 2 n + 1) := by
  have hplace : Nat.log 2 n + 1 = (Nat.log 2 n + 1 - lastPlace n) + lastPlace n := by
    unfold lastPlace
    omega
  have hn : (n : ℚ) ≤ 2 ^ (Nat.log 2 n + 1) := by
    exact_mod_cast (Nat.lt_pow_succ_log_self (by decide) n).le
  have hround : roundHalfEven (n / 2 ^ lastPlace n) ≤ 2 ^ (Nat.log 2 n + 1 - lastPlace n) := by
    apply roundHalfEven_le_pow
    rw [div_le_iff₀ (by positivity), ← pow_add, ← hplace]
    exact hn
  calc nearest n ≤ 2 ^ (Nat.log 2 n + 1 - lastPlace n) * 2 ^ lastPlace n :=
        mul_le_mul_of_nonneg_right hround (by positivity)
    _ = 2 ^ (Nat.log 2 n + 1) := by rw [← pow_add, ← hplace]

theorem le_nearest {n : ℕ} (hn : n ≠ 0) : 2 ^ Nat.log 2 n ≤ nearest n := by
  have hplace : Nat.log 2 n = (Nat.log 2 n - lastPlace n) + lastPlace n := by
    unfold lastPlace
    omega
  have hpow : (2 : ℚ) ^ Nat.log 2 n ≤ n := by exact_mod_cast Nat.pow_log_le_self 2 hn
  have hround : 2 ^ (Nat.log 2 n - lastPlace n) ≤ roundHalfEven (n / 2 ^ lastPlace n) := by
    apply pow_le_roundHalfEven
    rw [le_div_iff₀ (by positivity), ← pow_add, ← hplace]
    exact hpow
  calc (2 : ℤ) ^ Nat.log 2 n = 2 ^ (Nat.log 2 n - lastPlace n) * 2 ^ lastPlace n := by
        rw [← pow_add, ← hplace]
    _ ≤ nearest n := mul_le_mul_of_nonneg_right hround (by positivity)

theorem nearest_mono {m n : ℕ} (h : m ≤ n) : nearest m ≤ nearest n := by
  rcases (Nat.log_mono_right (b := 2) h).lt_or_eq with hlt | heq
  · -- a power of two stands between them
    have hn : n ≠ 0 := by
      rintro rfl
      simp at hlt
    calc nearest m ≤ 2 ^ (Nat.log 2 m + 1) := nearest_le m
      _ ≤ 2 ^ Nat.log 2 n := pow_le_pow_right₀ (by norm_num) hlt
      _ ≤ nearest n := le_nearest hn
  · have hplace : lastPlace m = lastPlace n := by rw [lastPlace, lastPlace, heq]
    have hquot : (m : ℚ) / 2 ^ lastPlace n ≤ n / 2 ^ lastPlace n :=
      div_le_div_of_nonneg_right (by exact_mod_cast h) (by positivity)
    unfold nearest
    rw [hplace]
    exact mul_le_mul_of_nonneg_right (roundHalfEven_mono hquot) (by positivity)

/-- The double nearest to a natural number is an integer, unless it overflows. -/
theorem doubleOf_natCast_eq (n : ℕ) :
    doubleOf n = if 2 ^ 1024 ≤ nearest n then none else some (nearest n : ℚ) := by
  rcases Nat.lt_or_ge n (2 ^ 53) with hsmall | hlarge
  · -- below `2 ^ 53` every place is kept
    have hplace : lastPlace n = 0 := by
      have : Nat.log 2 n < 53 ∨ n = 0 := by
        rcases Nat.eq_zero_or_pos n with h | h
        · exact .inr h
        · exact .inl (Nat.log_lt_of_lt_pow h.ne' hsmall)
      rcases this with h | rfl
      · unfold lastPlace
        omega
      · simp [lastPlace]
    have hself : nearest n = n := by
      have h := roundHalfEven_intCast n
      rw [Int.cast_natCast] at h
      rw [nearest, hplace, pow_zero, pow_zero, div_one, mul_one, h]
    have hfits : ¬(2 : ℤ) ^ 1024 ≤ n := by
      rw [not_le]
      calc (n : ℤ) < 2 ^ 53 := by exact_mod_cast hsmall
        _ ≤ 2 ^ 1024 := pow_le_pow_right₀ (by norm_num) (by norm_num)
    rw [doubleOf_natCast hsmall, hself, if_neg hfits, Int.cast_natCast]
  · have hlog : 53 ≤ Nat.log 2 n := Nat.le_log_of_pow_le (by decide) hlarge
    have hulp : max (-1074 : ℤ) (Int.log 2 (n : ℚ) - 52) = (lastPlace n : ℤ) := by
      rw [Int.log_natCast, lastPlace]
      omega
    have hpos : ¬(n : ℚ) < 0 := not_lt.mpr (Nat.cast_nonneg n)
    have hvalue : (roundHalfEven (n / 2 ^ lastPlace n) : ℚ) * 2 ^ lastPlace n = (nearest n : ℚ) := by
      rw [nearest]
      push_cast
      rfl
    have hcast : ((2 ^ 1024 : ℤ) : ℚ) ≤ (nearest n : ℚ) ↔ (2 : ℤ) ^ 1024 ≤ nearest n := Int.cast_le
    rw [Int.cast_pow, Int.cast_ofNat] at hcast
    unfold doubleOf
    simp only [Nat.abs_cast, hulp, zpow_natCast, hvalue, hcast, hpos, if_false]

/-- **Numbers in decimal digits are read in their order.** -/
theorem numberOfDigits_decimal_mono {m n : ℕ} (h : m ≤ n) :
    numberOfDigits (decimal m) ≤ numberOfDigits (decimal n) := by
  have hread : ∀ k : ℕ, numberOfDigits (decimal k) =
      if 2 ^ 1024 ≤ nearest k then ⊤ else ((nearest k).toNat : ℕ∞) := by
    intro k
    unfold numberOfDigits
    rw [digitsValue_decimal, doubleOf_natCast_eq]
    by_cases hbig : 2 ^ 1024 ≤ nearest k
    · rw [if_pos hbig, if_pos hbig]
    · rw [if_neg hbig, if_neg hbig]
      show (((nearest k : ℚ).num.toNat : ℕ) : ℕ∞) = _
      rw [Rat.num_intCast]
  rw [hread m, hread n]
  have hmono := nearest_mono h
  by_cases hn : 2 ^ 1024 ≤ nearest n
  · rw [if_pos hn]
    exact le_top
  · rw [if_neg hn, if_neg fun hm => hn (hm.trans hmono)]
    exact_mod_cast Int.toNat_le_toNat hmono

end Ecma.Json

import Newsdeck.Ecma.JsonRoundTrip
import Mathlib.Data.List.Chain

/-!
# The lines `JSON.stringify` writes

A line break in the output is layout: inside strings it is escaped.  Hence no line starts with a
backtick (`noTickLine_write`), whatever the strings contain, and a fenced code block around the
output ends at its own fence.
-/

namespace Ecma

namespace Json

/-- No line of the text starts with a backtick. -/
def NoTickLine (t : Text) : Prop :=
  (∀ c ∈ t.head?, c ≠ 96) ∧ t.IsChain fun a b => a = 10 → b ≠ 96

theorem NoTickLine.append {s t : Text} (hs : NoTickLine s) (ht : NoTickLine t) :
    NoTickLine (s ++ t) := by
  refine ⟨fun c hc => ?_, List.isChain_append.mpr ⟨hs.2, ht.2, fun _ _ c hc _ => ht.1 c hc⟩⟩
  cases s with
  | nil => exact ht.1 c hc
  | cons d s => exact hs.1 c hc

/-- A text without backticks. -/
theorem noTickLine_of_not_mem {t : Text} (h : 96 ∉ t) : NoTickLine t := by
  refine ⟨fun c hc hc' => h (hc' ▸ List.mem_of_mem_head? hc), ?_⟩
  induction t with
  | nil => simp
  | cons c t ih =>
    rw [List.isChain_cons]
    refine ⟨fun d hd _ hd' => h ?_, ih fun ht => h (by simp [ht])⟩
    rw [← hd']
    simp [List.mem_of_mem_head? hd]

/-- A text on one line. -/
theorem noTickLine_of_one_line {t : Text} (h : 10 ∉ t) (hhead : ∀ c ∈ t.head?, c ≠ 96) :
    NoTickLine t := by
  refine ⟨hhead, ?_⟩
  clear hhead
  induction t with
  | nil => simp
  | cons c t ih =>
    rw [List.isChain_cons]
    exact ⟨fun d _ hc => absurd (by simp [hc]) h, ih fun ht => h (by simp [ht])⟩

theorem newline_notMem_unicodeEscape (c : ℕ) : 10 ∉ unicodeEscape c := by
  have hhex : ∀ d, hexDigit d ≠ 10 := by
    intro d
    unfold hexDigit
    split <;> omega
  simp [unicodeEscape, (hhex _).symm]

theorem newline_notMem_escapeUnit (c : ℕ) : 10 ∉ escapeUnit c := by
  unfold escapeUnit
  split_ifs
  any_goals decide
  · exact newline_notMem_unicodeEscape c
  · simp only [List.mem_singleton]
    omega

theorem newline_notMem_quoteUnits (t : Text) : 10 ∉ quoteUnits t := by
  induction t using quoteUnits.induct with
  | case1 => simp [quoteUnits]
  | case2 c hc d u hd ih =>
    simp only [isHighSurrogate, isLowSurrogate, Bool.and_eq_true, decide_eq_true_eq] at hc hd
    have hc' : c ≠ 10 := by omega
    have hd' : d ≠ 10 := by omega
    simp [quoteUnits, isHighSurrogate, isLowSurrogate, hc, hd, hc'.symm, hd'.symm, ih]
  | case3 c hc d u hd ih =>
    rw [quoteUnits, if_pos hc, if_neg hd, List.mem_append]
    exact not_or.mpr ⟨newline_notMem_unicodeEscape c, ih⟩
  | case4 c hc =>
    rw [quoteUnits, if_pos hc]
    exact newline_notMem_unicodeEscape c
  | case5 c t hc hd ih =>
    rw [quoteUnits.eq_def]
    simp only [hc, hd, if_true, Bool.false_eq_true, if_false, List.mem_append]
    exact not_or.mpr ⟨newline_notMem_unicodeEscape c, ih⟩
  | case6 c t hc hd ih =>
    rw [quoteUnits.eq_def]
    simp only [hc, hd, Bool.false_eq_true, if_false, List.mem_append]
    exact not_or.mpr ⟨newline_notMem_escapeUnit c, ih⟩

theorem noTickLine_quote (t : Text) : NoTickLine (quote t) := by
  apply noTickLine_of_one_line
  · simp [quote, newline_notMem_quoteUnits]
  · intro c hc
    simp only [quote, List.cons_append, List.head?_cons, Option.mem_some_iff] at hc
    omega

theorem noTickLine_newlineAt (gap d : ℕ) : NoTickLine (newlineAt gap d) := by
  apply noTickLine_of_not_mem
  intro h
  exact absurd (isSpace_newlineAt gap d 96 h) (by decide)

theorem noTickLine_colon (gap : ℕ) : NoTickLine (colon gap) := by
  apply noTickLine_of_not_mem
  unfold colon
  split <;> decide

theorem noTickLine_singleton {c : ℕ} (h : c ≠ 96) : NoTickLine [c] :=
  noTickLine_of_not_mem (by simpa using h.symm)

section Lines

variable [Host]

mutual

theorem noTickLine_write (gap : ℕ) : ∀ (v : Json) (d : ℕ), Plain v → NoTickLine (write gap d v)
  | .null, _, _ => show NoTickLine (lit "null") from noTickLine_of_not_mem (by decide)
  | .bool true, _, _ => show NoTickLine (lit "true") from noTickLine_of_not_mem (by decide)
  | .bool false, _, _ => show NoTickLine (lit "false") from noTickLine_of_not_mem (by decide)
  | .num v, d, h => by
    simp only [Plain] at h
    obtain ⟨n, rfl, hn⟩ := h
    rw [write, numeral_natCast hn]
    exact noTickLine_of_not_mem fun hmem => by have := decimal_digit hmem; omega
  | .str t, d, _ => noTickLine_quote t
  | .arr [], _, _ => show NoTickLine (lit "[]") from noTickLine_of_not_mem (by decide)
  | .arr (v :: vs), d, h => by
    have hitems := noTickLine_writeItems gap vs (d + 1) h.2
    exact ((((noTickLine_singleton (by decide)).append (noTickLine_newlineAt gap (d + 1))).append
      (noTickLine_write gap v (d + 1) h.1)).append hitems |>.append
        (noTickLine_newlineAt gap d)).append (noTickLine_singleton (by decide))
  | .obj [], _, _ => show NoTickLine [123, 125] from noTickLine_of_not_mem (by decide)
  | .obj ((k, v) :: ms), d, h => by
    have hmembers := noTickLine_writeMembers gap ms (d + 1) h.2
    exact ((((((noTickLine_singleton (by decide)).append (noTickLine_newlineAt gap (d + 1))).append
      (noTickLine_quote k)).append (noTickLine_colon gap)).append
        (noTickLine_write gap v (d + 1) h.1)).append hmembers |>.append
          (noTickLine_newlineAt gap d)).append (noTickLine_singleton (by decide))

theorem noTickLine_writeItems (gap : ℕ) : ∀ (vs : List Json) (d : ℕ), PlainItems vs →
    NoTickLine (writeItems gap d vs)
  | [], _, _ => noTickLine_of_not_mem (by simp [writeItems])
  | v :: vs, d, h =>
    (((noTickLine_singleton (by decide)).append (noTickLine_newlineAt gap d)).append
      (noTickLine_write gap v d h.1)).append (noTickLine_writeItems gap vs d h.2)

theorem noTickLine_writeMembers (gap : ℕ) : ∀ (ms : List (Text × Json)) (d : ℕ), PlainMembers ms →
    NoTickLine (writeMembers gap d ms)
  | [], _, _ => noTickLine_of_not_mem (by simp [writeMembers])
  | (k, v) :: ms, d, h =>
    (((((noTickLine_singleton (by decide)).append (noTickLine_newlineAt gap d)).append
      (noTickLine_quote k)).append (noTickLine_colon gap)).append
        (noTickLine_write gap v d h.1)).append (noTickLine_writeMembers gap ms d h.2)

end

end Lines

end Json

end Ecma

import Mathlib.Data.Nat.Digits.Lemmas
import Mathlib.Data.List.Infix
import Mathlib.Data.Rat.Defs

/-!
# ECMAScript strings as lists of UTF-16 code units

Every string the modelled program handles is a sequence of 16-bit code units; its `length`, its
`slice` and its comparisons all count units.  This file fixes that representation and the handful of
string operations the program uses:

* `lit` — a source literal, unit by unit;
* `decimal` — what a template literal prints for a natural number;
* `replaceAll` — `String.prototype.replaceAll` with a string pattern, left to right and
  non-overlapping;
* `Host` — the built-ins whose tables live in the engine (case conversion, collation, printing of
  fractional numbers, regular expressions compiled from run-time text).  Nothing is assumed about
  them.
-/

namespace Ecma

/-- A string: its UTF-16 code units. -/
abbrev Text := List ℕ

instance lawfulBEqText : LawfulBEq Text := inferInstance

/-- A literal of the source.  All of them lie in the basic multilingual plane, where a character is
one code unit. -/
def lit (s : String) : Text := s.toList.map Char.toNat

theorem lit_injective : Function.Injective lit := by
  intro s t h
  unfold lit at h
  have hinj : Function.Injective Char.toNat := fun a b hab => Char.toNat_inj.mp hab
  exact String.toList_injective (List.map_injective_iff.mpr hinj h)

@[simp] theorem lit_inj {s t : String} : lit s = lit t ↔ s = t := lit_injective.eq_iff

/-- A long literal is read off its characters, not evaluated. -/
theorem lit_eq_map {s : String} {cs : List Char} (h : s = String.ofList cs) : lit s = cs.map Char.toNat := by
  rw [h, lit, String.toList_ofList]

theorem not_mem_lit {s : String} {cs : List Char} {c : ℕ} (h : s = String.ofList cs)
    (hc : (cs.map Char.toNat).all (fun d => d ≠ c) = true) : c ∉ lit s := by
  rw [lit_eq_map h]
  intro hmem
  simpa using List.all_eq_true.mp hc c hmem

/-- A regular expression compiled from run-time text, with the `i` flag and no other. -/
structure CompiledRegExp where
  source : Text
  test : Text → Bool

/-- The built-ins the engine supplies from its own tables. -/
class Host where
  /-- `String.prototype.toLowerCase`, the full Unicode mapping. -/
  toLowerCase : Text → Text
  /-- `String.prototype.localeCompare`. -/
  localeCompare : Text → Text → Ordering
  /-- `Number.prototype.toString` away from the integers below `10 ^ 21`. -/
  numberToString : ℚ → Text
  /-- `new RegExp(pattern, 'i')`; `none` is the `SyntaxError` of an invalid pattern. -/
  newRegExp : Text → Option CompiledRegExp

/-- A host that knows the ASCII letters only, prints no fraction and compiles no pattern. -/
@[reducible] def asciiHost : Host where
  toLowerCase := List.map fun c => if 65 ≤ c ∧ c ≤ 90 then c + 32 else c
  localeCompare := fun a b => compareOfLessAndEq a b
  numberToString := fun _ => []
  newRegExp := fun _ => none

/-! ### Printing -/

/-- What `${n}` prints for a natural number below `10 ^ 21`. -/
def decimal (n : ℕ) : Text :=
  if n = 0 then [48] else ((Nat.digits 10 n).map (· + 48)).reverse

/-- `parts.join(sep)`. -/
def join (sep : Text) (parts : List Text) : Text := sep.intercalate parts

theorem decimal_digit {n c : ℕ} (h : c ∈ decimal n) : 48 ≤ c ∧ c < 58 := by
  unfold decimal at h
  split at h
  · simp only [List.mem_singleton] at h
    omega
  · simp only [List.mem_reverse, List.mem_map] at h
    obtain ⟨d, hd, rfl⟩ := h
    have := Nat.digits_lt_base (by decide) hd
    omega

theorem decimal_ne_nil (n : ℕ) : decimal n ≠ [] := by
  unfold decimal
  split
  · simp
  · rename_i h
    simpa using Nat.digits_ne_nil_iff_ne_zero.mpr h

theorem length_decimal_le {n k : ℕ} (hk : 0 < k) (h : n < 10 ^ k) : (decimal n).length ≤ k := by
  unfold decimal
  split
  · exact hk
  · rw [List.length_reverse, List.length_map]
    exact (Nat.digits_length_le_iff (by decide) n).mpr h

/-- `xs.slice(-n)` for a positive `n`. -/
def takeLast {α : Type} (n : ℕ) (xs : List α) : List α := xs.drop (xs.length - n)

theorem length_takeLast_le {α : Type} (n : ℕ) (xs : List α) : (takeLast n xs).length ≤ n := by
  unfold takeLast
  rw [List.length_drop]
  omega

theorem mem_of_mem_takeLast {α : Type} {n : ℕ} {xs : List α} {x : α} (h : x ∈ takeLast n xs) :
    x ∈ xs := List.mem_of_mem_drop h

/-- The newest entry is kept. -/
theorem mem_takeLast_concat {α : Type} {n : ℕ} (hn : 0 < n) (xs : List α) (x : α) :
    x ∈ takeLast n (xs ++ [x]) := by
  have hdrop : (xs ++ [x]).length - n ≤ xs.length := by
    rw [List.length_append, List.length_singleton]
    omega
  rw [takeLast, List.drop_append_of_le_length hdrop]
  simp

/-! ### Replacement -/

/-- The scan behind `replaceAll`: the first argument counts the units of the current occurrence
still to be dropped. -/
def replaceFrom (pattern replacement : Text) : ℕ → Text → Text
  | _, [] => []
  | skip + 1, _ :: t => replaceFrom pattern replacement skip t
  | 0, c :: t =>
      if pattern.isPrefixOf (c :: t) then
        replacement ++ replaceFrom pattern replacement (pattern.length - 1) t
      else c :: replaceFrom pattern replacement 0 t

/-- `text.replaceAll(pattern, replacement)` for a non-empty pattern. -/
def replaceAll (pattern replacement text : Text) : Text :=
  replaceFrom pattern replacement 0 text

end Ecma

import Newsdeck.Ecma.Replacing
import Newsdeck.Library.Splitting
import Newsdeck.Runner.Redact

/-!
# Prompt templates

A placeholder is a name in double braces.  `render` puts values in the places of a template.

* `Cuts` — the pieces of a template: its units, and its placeholders from left to right;
* `render_cuts` — **a template has its pieces before any value is known**: what is rendered is the
  pieces, each placeholder with its value, and no value is read again;
* `render_text`, `render_slot` — rendering a template that is given in parts.
-/

namespace Newsdeck.Runner

open Ecma Regex

/-- `[A-Z_]`. -/
def isKeyUnit (c : ℕ) : Bool := isUpper c || c = 95

/-- `PLACEHOLDER`; the group 0 is the whole match. -/
def placeholder : Regex ℕ :=
  .group 0 (cat [str "\x7b\x7b", .group 1 (many1 (.cls isKeyUnit)), str "\x7d\x7d"])

/-- `values[key]`, when there is one. -/
abbrev Values := List (Text × Text)

/-- What stands in the place of a match: the value of its name, or the match. -/
def substitute (values : Values) (caps : Captures ℕ) : Text :=
  (values.lookup (groupText 1 caps)).getD (groupText 0 caps)

/-- Substitute the values in one pass. -/
def render (template : Text) (values : Values) : Text :=
  placeholder.replace (substitute values) template

/-! ### The pieces of a template -/

/-- How a placeholder is spelled. -/
def slotText (key : Text) : Text := lit "\x7b\x7b" ++ (key ++ lit "\x7d\x7d")

/-- The name of a placeholder. -/
def IsKey (key : Text) : Prop := key ≠ [] ∧ ∀ c ∈ key, isKeyUnit c = true

instance (key : Text) : Decidable (IsKey key) := inferInstanceAs (Decidable (_ ∧ _))

inductive Piece where
  | unit (c : ℕ)
  | slot (key : Text)
  deriving DecidableEq, Repr

def Piece.spelled : Piece → Text
  | .unit c => [c]
  | .slot key => slotText key

/-- The piece with its value; a placeholder without one stays as it is. -/
def Piece.filled (values : Values) : Piece → Text
  | .unit c => [c]
  | .slot key => (values.lookup key).getD (slotText key)

/-- The pieces of a text: at a placeholder the placeholder, and elsewhere one unit. -/
inductive Cuts : Text → List Piece → Prop
  | nil : Cuts [] []
  | unit {c : ℕ} {x : Text} {pieces : List Piece} (h : ∀ key rest, IsKey key →
      c :: x ≠ slotText key ++ rest)
      (rest : Cuts x pieces) : Cuts (c :: x) (.unit c :: pieces)
  | slot {key x : Text} {pieces : List Piece} (h : IsKey key) (rest : Cuts x pieces) :
      Cuts (slotText key ++ x) (.slot key :: pieces)

section Pieces

variable {b t x y key key' : Text} {pieces pieces' : List Piece} {values : Values}

theorem isKeyUnit_brace : isKeyUnit 125 = false := by decide

/-- Two placeholders at one place are the same. -/
theorem slotText_inj (hkey : IsKey key) (hkey' : IsKey key')
    (h : slotText key ++ x = slotText key' ++ y) :
    key = key' ∧ x = y := by
  unfold slotText at h
  simp only [List.append_assoc, List.append_cancel_left_eq] at h
  have hnot : ∀ {key : Text}, IsKey key → 125 ∉ key := by
    intro key hkey hmem
    have hunit := hkey.2 125 hmem
    rw [isKeyUnit_brace] at hunit
    cases hunit
  have hbrace : lit "\x7d\x7d" = [125, 125] := by decide
  rw [hbrace] at h
  obtain ⟨rfl, hrest⟩ := Splitting.append_cons_inj_of_not_mem (hnot hkey) (hnot hkey') h
  exact ⟨rfl, by simpa using hrest⟩

theorem Cuts.spelled (h : Cuts t pieces) : pieces.flatMap Piece.spelled = t := by
  induction h with
  | nil => rfl
  | unit _ _ ih => rw [List.flatMap_cons, ih]; rfl
  | slot _ _ ih => rw [List.flatMap_cons, ih]; rfl

/-- A text has its pieces in one way only. -/
theorem Cuts.unique (h : Cuts t pieces) (h' : Cuts t pieces') : pieces = pieces' := by
  induction h generalizing pieces' with
  | nil =>
    generalize hnil : ([] : Text) = t' at h'
    cases h' with
    | nil => rfl
    | unit => cases hnil
    | slot => cases hnil
  | @unit c x pieces hunit _ ih =>
    generalize hcons : c :: x = t' at h'
    cases h' with
    | nil => cases hcons
    | unit _ rest =>
      obtain ⟨rfl, rfl⟩ := List.cons.inj hcons
      rw [ih rest]
    | slot hkey _ => exact absurd hcons (hunit _ _ hkey)
  | @slot key x pieces hkey _ ih =>
    generalize hslot : slotText key ++ x = t' at h'
    cases h' with
    | nil => cases hslot
    | unit hunit _ => exact absurd hslot.symm (hunit _ _ hkey)
    | slot hkey' rest =>
      obtain ⟨rfl, rfl⟩ := slotText_inj hkey hkey' hslot
      rw [ih rest]

/-- What the expression matches. -/
theorem takes_placeholder {s' : Cursor ℕ × Captures ℕ} : placeholder.Takes (⟨b, t⟩, []) s' ↔
    ∃ key x, t = slotText key ++ x ∧ IsKey key ∧
      s' = (⟨(slotText key).reverse ++ b, x⟩, [(0, slotText key), (1, key)]) := by
  constructor
  · rintro ⟨_, ⟨_, hopen, _, ⟨_, hname, rfl⟩, hclose⟩, rfl⟩
    obtain ⟨v, rfl, rfl⟩ := takes_units.mp hopen
    obtain ⟨key, rest, rfl, hne, hkey, rfl⟩ := takes_many1.mp hname
    obtain ⟨x, rfl, rfl⟩ := takes_units.mp hclose
    have hsplit : lit "\x7b\x7b" ++ (key ++ (lit "\x7d\x7d" ++ x)) =
      slotText key ++ x := by simp [slotText]
    refine ⟨key, x, hsplit, ⟨hne, hkey⟩, ?_⟩
    rw [hsplit, take_consumed, take_consumed]
    simp [slotText]
  · rintro ⟨key, x, rfl, ⟨hne, hkey⟩, rfl⟩
    have hsplit : slotText key ++ x = lit "\x7b\x7b" ++ (key ++ (lit "\x7d\x7d" ++ x)) := by
      simp [slotText]
    refine ⟨_, ⟨_, takes_units.mpr ⟨key ++ (lit "\x7d\x7d" ++ x), hsplit, rfl⟩, _,
      ⟨_, takes_many1.mpr ⟨key, _, rfl, hne, hkey, rfl⟩, rfl⟩, takes_units.mpr ⟨x, rfl, rfl⟩⟩, ?_⟩
    rw [take_consumed, take_consumed]
    simp [slotText]

theorem slotText_ne_nil (key : Text) : slotText key ≠ [] := by
  unfold slotText lit
  simp

theorem placeholder_consumes : placeholder.Consumes := by
  intro b t s' htakes
  obtain ⟨key, x, rfl, -, rfl⟩ := takes_placeholder.mp htakes
  have hpos := List.length_pos_iff.mpr (slotText_ne_nil key)
  rw [List.length_append]
  exact Nat.lt_add_of_pos_left hpos

/-- What is replaced is the pieces of the text, each with its value. -/
theorem cuts_of_replaced {P : Text → Text → Captures ℕ → Text → Prop}
    (h : Replaced placeholder (substitute values) P b x y) :
    ∃ pieces, Cuts x pieces ∧ y = pieces.flatMap (Piece.filled values) := by
  induction h with
  | nil => exact ⟨[], .nil, rfl⟩
  | @skip b x y c hnone _ ih =>
    obtain ⟨pieces, hcuts, rfl⟩ := ih
    refine ⟨.unit c :: pieces, .unit (fun key rest hkey hsplit => ?_) hcuts, rfl⟩
    exact run_done_eq_none_iff.mp hnone _ (takes_placeholder.mpr ⟨key, rest, hsplit, hkey, rfl⟩)
  | @found b m x y caps hne hrun _ _ ih =>
    obtain ⟨pieces, hcuts, rfl⟩ := ih
    obtain ⟨key, x', hsplit, hkey, heq⟩ := takes_placeholder.mp (takes_of_run_done hrun)
    obtain ⟨hpos, rfl⟩ := Prod.mk.inj heq
    obtain rfl : x = x' := congrArg Cursor.after hpos
    obtain rfl := List.append_cancel_right hsplit
    exact ⟨.slot key :: pieces, .slot hkey hcuts, rfl⟩

/-- The result of rendering a text whose pieces are known. -/
theorem Cuts.render (h : Cuts t pieces) (values : Values) :
    render t values = pieces.flatMap (Piece.filled values) := by
  have heach : EachMatch placeholder (fun _ _ _ _ => True) t.length ⟨[], t⟩ :=
    eachMatch_of_forall fun _ _ _ _ _ => trivial
  obtain ⟨pieces', hcuts, hrender⟩ := cuts_of_replaced (replaced_replace placeholder_consumes heach)
  rw [h.unique hcuts]
  exact hrender

theorem cuts_text (ht : 123 ∉ t) (h : Cuts x pieces) :
    Cuts (t ++ x) (t.map Piece.unit ++ pieces) := by
  induction t with
  | nil => exact h
  | cons c t ih =>
    refine .unit (fun key rest _ hsplit => ?_) (ih fun hmem => ht (List.mem_cons_of_mem c hmem))
    rw [slotText] at hsplit
    have hbrace : lit "\x7b\x7b" = [123, 123] := by decide
    rw [hbrace] at hsplit
    exact ht (by rw [(List.cons.inj hsplit).1]; exact List.mem_cons_self)

theorem filled_units (t : Text) (values : Values) :
    (t.map Piece.unit).flatMap (Piece.filled values) = t := by
  induction t with
  | nil => rfl
  | cons c t ih => exact congrArg _ ih

end Pieces

/-! ### Rendering -/

theorem exists_cuts (template : Text) : ∃ pieces, Cuts template pieces := by
  have heach : EachMatch placeholder (fun _ _ _ _ => True) template.length ⟨[], template⟩ :=
    eachMatch_of_forall fun _ _ _ _ _ => trivial
  have hreplaced : Replaced placeholder (substitute []) (fun _ _ _ _ => True) [] template
      (render template []) :=
    replaced_replace placeholder_consumes heach
  obtain ⟨pieces, hcuts, -⟩ := cuts_of_replaced hreplaced
  exact ⟨pieces, hcuts⟩

/-- **Values are not read again.**  A template has its pieces before any value is known.  Spelled
out they are the template, and what is rendered is the pieces with each placeholder filled in,
whatever the values hold. -/
theorem render_cuts (template : Text) : ∃ pieces, Cuts template pieces ∧
    pieces.flatMap Piece.spelled = template ∧
      (∀ pieces', Cuts template pieces' → pieces' = pieces) ∧
    ∀ values, render template values = pieces.flatMap (Piece.filled values) := by
  obtain ⟨pieces, hcuts⟩ := exists_cuts template
  exact ⟨pieces, hcuts, hcuts.spelled, fun _ h => h.unique hcuts, hcuts.render⟩

/-! ### A template given in parts -/

section Parts

variable {t x key value : Text} {values : Values}

theorem render_text (ht : 123 ∉ t) : render (t ++ x) values = t ++ render x values := by
  obtain ⟨pieces, hcuts⟩ := exists_cuts x
  rw [(cuts_text ht hcuts).render, hcuts.render, List.flatMap_append, filled_units]

theorem render_slot (hkey : IsKey key) (hvalue : values.lookup key = some value) :
    render (slotText key ++ x) values = value ++ render x values := by
  obtain ⟨pieces, hcuts⟩ := exists_cuts x
  rw [(Cuts.slot hkey hcuts).render, hcuts.render, List.flatMap_cons, Piece.filled, hvalue]
  rfl

end Parts

example : render (lit "\x7b\x7bA\x7d\x7d and \x7b\x7bB\x7d\x7d")
    [(lit "A", lit "\x7b\x7bB\x7d\x7d")] =
    lit "\x7b\x7bB\x7d\x7d and \x7b\x7bB\x7d\x7d" := by decide +kernel

end Newsdeck.Runner

import Mathlib.Data.List.Basic
import Mathlib.Order.Nat

/-!
# Patterns with wildcards

A pattern is a list of pieces: a run of any symbols, or one symbol that meets a condition.  A text
fits it when the pieces can be laid along the text.  The symbols are arbitrary; they may be texts
that are themselves matched against patterns.

* `fits_append` — a text fits two patterns in a row when it splits into texts that fit them;
* `Fits.least_le`, `Fits.accepts_of_least` — a pattern needs a symbol for each single piece, and in
  a text that has no more symbols each piece stands where its symbol is;
* `fits_of_open` — a stretch of wildcards with a run in it takes any text that is long enough.
-/

namespace Wildcards

variable {α : Type}

inductive Piece (α : Type) where
  | run : Piece α
  | one (accepts : α → Prop) : Piece α

inductive Fits : List (Piece α) → List α → Prop
  | nil : Fits [] []
  | run {pattern text} (taken : List α) (rest : Fits pattern text) :
      Fits (.run :: pattern) (taken ++ text)
  | one {accepts pattern text a} (here : accepts a) (rest : Fits pattern text) :
      Fits (.one accepts :: pattern) (a :: text)

variable {pattern pattern' : List (Piece α)} {text text' : List α} {accepts : α → Prop}

@[simp] theorem fits_nil_iff : Fits [] text ↔ text = [] := by
  constructor
  · intro h
    cases h
    rfl
  · rintro rfl
    exact .nil

theorem fits_run_iff :
    Fits (.run :: pattern) text ↔ ∃ taken rest, text = taken ++ rest ∧ Fits pattern rest := by
  constructor
  · intro h
    cases h with
    | run taken rest => exact ⟨taken, _, rfl, rest⟩
  · rintro ⟨taken, rest, rfl, h⟩
    exact .run taken h

theorem fits_one_iff :
    Fits (.one accepts :: pattern) text ↔ ∃ a rest, text = a :: rest ∧ accepts a ∧ Fits pattern rest := by
  constructor
  · intro h
    cases h with
    | one here rest => exact ⟨_, _, rfl, here, rest⟩
  · rintro ⟨a, rest, rfl, here, h⟩
    exact .one here h

@[simp] theorem fits_one_cons_iff {a : α} :
    Fits (.one accepts :: pattern) (a :: text) ↔ accepts a ∧ Fits pattern text := by
  rw [fits_one_iff]
  constructor
  · rintro ⟨_, _, heq, here, h⟩
    obtain ⟨rfl, rfl⟩ := List.cons.inj heq
    exact ⟨here, h⟩
  · rintro ⟨here, h⟩
    exact ⟨a, text, rfl, here, h⟩

@[simp] theorem not_fits_one_nil : ¬Fits (.one accepts :: pattern) [] := by
  intro h
  cases h

/-- A text fits two patterns in a row when it splits. -/
theorem fits_append : Fits (pattern ++ pattern') text ↔
    ∃ front back, text = front ++ back ∧ Fits pattern front ∧ Fits pattern' back := by
  induction pattern generalizing text with
  | nil => simp
  | cons piece pattern ih =>
    cases piece with
    | run =>
      simp only [List.cons_append, fits_run_iff, ih]
      constructor
      · rintro ⟨taken, _, rfl, front, back, rfl, hfront, hback⟩
        exact ⟨taken ++ front, back, (List.append_assoc ..).symm, ⟨taken, front, rfl, hfront⟩, hback⟩
      · rintro ⟨_, back, rfl, ⟨taken, front, rfl, hfront⟩, hback⟩
        exact ⟨taken, front ++ back, List.append_assoc .., front, back, rfl, hfront, hback⟩
    | one accepts =>
      simp only [List.cons_append, fits_one_iff, ih]
      constructor
      · rintro ⟨a, _, rfl, here, front, back, rfl, hfront, hback⟩
        exact ⟨a :: front, back, rfl, ⟨a, front, rfl, here, hfront⟩, hback⟩
      · rintro ⟨_, back, rfl, ⟨a, front, rfl, here, hfront⟩, hback⟩
        exact ⟨a, front ++ back, rfl, here, front, back, rfl, hfront, hback⟩

theorem Fits.append (h : Fits pattern text) (h' : Fits pattern' text') :
    Fits (pattern ++ pattern') (text ++ text') := fits_append.mpr ⟨text, text', rfl, h, h'⟩

/-! ### Lengths -/

/-- The number of symbols the pattern needs. -/
def least : List (Piece α) → ℕ
  | [] => 0
  | .run :: pattern => least pattern
  | .one _ :: pattern => least pattern + 1

theorem least_append (pattern pattern' : List (Piece α)) :
    least (pattern ++ pattern') = least pattern + least pattern' := by
  induction pattern with
  | nil => exact (Nat.zero_add _).symm
  | cons piece pattern ih =>
    cases piece with
    | run => exact ih
    | one accepts =>
      simp only [List.cons_append, least, ih]
      omega

theorem Fits.least_le (h : Fits pattern text) : least pattern ≤ text.length := by
  induction h with
  | nil => exact le_rfl
  | run taken _ ih =>
    rw [List.length_append]
    exact ih.trans (Nat.le_add_left _ _)
  | one _ _ ih => exact Nat.succ_le_succ ih

/-- In a text with no more symbols than the pattern needs, a piece stands where its symbol is. -/
theorem Fits.accepts_of_least {a : α} (h : Fits (pattern ++ .one accepts :: pattern') (text ++ a :: text'))
    (hfront : text.length = least pattern) (hback : text'.length = least pattern') : accepts a := by
  obtain ⟨front, back, hsplit, hpattern, hrest⟩ := fits_append.mp h
  obtain ⟨b, back, rfl, here, hpattern'⟩ := fits_one_iff.mp hrest
  have hlength := congrArg List.length hsplit
  simp only [List.length_append, List.length_cons] at hlength
  have := hpattern.least_le
  have := hpattern'.least_le
  obtain ⟨-, htail⟩ := List.append_inj hsplit (by omega)
  rw [(List.cons.inj htail).1]
  exact here

/-- A pattern without runs fixes the length. -/
theorem Fits.length_eq (h : Fits pattern text) (hnone : Piece.run ∉ pattern) :
    text.length = least pattern := by
  induction h with
  | nil => rfl
  | run taken _ _ => exact absurd List.mem_cons_self hnone
  | one _ _ ih => rw [List.length_cons, ih (List.not_mem_of_not_mem_cons hnone), least]

/-- A text made from a pattern, one symbol for each piece, fits it when the single pieces accept
theirs. -/
theorem fits_map_self {β : Type} {pieces : List β} {piece : β → Piece α} {symbol : β → α}
    (h : ∀ b ∈ pieces, piece b = .run ∨ ∃ p, piece b = .one p ∧ p (symbol b)) :
    Fits (pieces.map piece) (pieces.map symbol) := by
  induction pieces with
  | nil => exact .nil
  | cons b pieces ih =>
    have hrest := ih fun b' hb' => h b' (List.mem_cons_of_mem _ hb')
    rw [List.map_cons, List.map_cons]
    rcases h b List.mem_cons_self with hrun | ⟨p, hone, hp⟩
    · rw [hrun]
      exact .run [symbol b] hrest
    · rw [hone]
      exact .one hp hrest

/-! ### Wildcards -/

/-- Every piece is a wildcard. -/
def Open (pattern : List (Piece α)) : Prop :=
  ∀ piece ∈ pattern, piece = .run ∨ piece = .one fun _ => True

theorem Open.of_cons {piece : Piece α} (h : Open (piece :: pattern)) : Open pattern :=
  fun piece hpiece => h piece (List.mem_cons_of_mem _ hpiece)

/-- Single wildcards take any text of their length. -/
theorem fits_of_open_of_length (hopen : Open pattern) (h : text.length = least pattern) :
    Fits pattern text := by
  induction pattern generalizing text with
  | nil => exact fits_nil_iff.mpr (List.length_eq_zero_iff.mp h)
  | cons piece pattern ih =>
    rcases hopen piece List.mem_cons_self with rfl | rfl
    · exact .run [] (ih hopen.of_cons h)
    · cases text with
      | nil => simp [least] at h
      | cons a text => exact .one trivial (ih hopen.of_cons (Nat.succ.inj h))

/-- With a run among them, wildcards take any text that is long enough. -/
theorem fits_of_open (hopen : Open pattern) (hrun : Piece.run ∈ pattern)
    (h : least pattern ≤ text.length) : Fits pattern text := by
  induction pattern generalizing text with
  | nil => exact absurd hrun List.not_mem_nil
  | cons piece pattern ih =>
    rcases hopen piece List.mem_cons_self with rfl | rfl
    · -- the run takes what the pieces after it leave over
      have hrest : Fits pattern (text.drop (text.length - least pattern)) := by
        apply fits_of_open_of_length hopen.of_cons
        rw [List.length_drop]
        simp only [least] at h
        omega
      rw [← List.take_append_drop (text.length - least pattern) text]
      exact .run _ hrest
    · have hlater : Piece.run ∈ pattern := by simpa using hrun
      cases text with
      | nil => simp [least] at h
      | cons a text => exact .one trivial (ih hopen.of_cons hlater (Nat.le_of_succ_le_succ h))

/-! ### Other symbols -/

/-- A piece for texts over `β`, read on what their symbols stand for. -/
def Piece.comap {β : Type} (f : α → β) : Piece β → Piece α
  | .run => .run
  | .one accepts => .one fun a => accepts (f a)

theorem fits_map_iff {β : Type} (f : α → β) {pieces : List (Piece β)} {text : List α} :
    Fits pieces (text.map f) ↔ Fits (pieces.map (Piece.comap f)) text := by
  induction pieces generalizing text with
  | nil => simp
  | cons piece pieces ih =>
    cases piece with
    | run =>
      rw [List.map_cons, Piece.comap, fits_run_iff, fits_run_iff]
      constructor
      · rintro ⟨taken, rest, hsplit, h⟩
        obtain ⟨taken, rest, rfl, rfl, rfl⟩ := List.map_eq_append_iff.mp hsplit
        exact ⟨taken, rest, rfl, ih.mp h⟩
      · rintro ⟨taken, rest, rfl, h⟩
        exact ⟨taken.map f, rest.map f, List.map_append, ih.mpr h⟩
    | one accepts =>
      rw [List.map_cons, Piece.comap]
      cases text with
      | nil => simp
      | cons a text => rw [List.map_cons, fits_one_cons_iff, fits_one_cons_iff, ih]

/-- Two patterns that differ in what their pieces accept, on a text that does not show it. -/
theorem fits_congr {β : Type} {pieces : List β} {here there : β → Piece α} {text : List α}
    (h : ∀ b ∈ pieces, (here b = .run ∧ there b = .run) ∨
      ∃ p q, here b = .one p ∧ there b = .one q ∧ ∀ a ∈ text, p a ↔ q a) :
    Fits (pieces.map here) text ↔ Fits (pieces.map there) text := by
  induction pieces generalizing text with
  | nil => exact Iff.rfl
  | cons b pieces ih =>
    have hrest : ∀ rest : List α, rest ⊆ text →
        (Fits (pieces.map here) rest ↔ Fits (pieces.map there) rest) := by
      intro rest hsub
      refine ih fun b' hb' => (h b' (List.mem_cons_of_mem _ hb')).imp_right ?_
      rintro ⟨p, q, hp, hq, hsame⟩
      exact ⟨p, q, hp, hq, fun a ha => hsame a (hsub ha)⟩
    rw [List.map_cons, List.map_cons]
    rcases h b List.mem_cons_self with ⟨hhere, hthere⟩ | ⟨p, q, hhere, hthere, hsame⟩
    · rw [hhere, hthere, fits_run_iff, fits_run_iff]
      refine exists₂_congr fun taken rest => and_congr_right fun htext => hrest rest ?_
      rw [htext]
      exact List.subset_append_right _ _
    · rw [hhere, hthere]
      cases text with
      | nil => simp
      | cons a text =>
        rw [fits_one_cons_iff, fits_one_cons_iff, hsame a List.mem_cons_self,
          hrest text (List.subset_cons_self _ _)]

end Wildcards

import Newsdeck.Ecma.Json
import Mathlib.Data.List.TakeWhile

/-!
# What the reader takes

The calls of the reader, told by what they return.

* `parseValue_iff`, `parseItems_iff`, `parseMembers_iff` — one call of the reader;
* `Spans` — a stretch of text made of strings and of units that stand outside of them;
* `spans_parseValue` — what the reader takes for a value is such a stretch, with one string for each
  that is in the value.
-/

namespace Ecma

namespace Json

/-! ### One call -/

/-- The words for values. -/
def literals : List (Text × Json) :=
  [(lit "true", .bool true), (lit "false", .bool false), (lit "null", .null)]

/-- What one call of the reader returns on a text that begins with no blank. -/
inductive ValueRead (n : ℕ) : Text → Json → Text → Prop
  | emptyObject {t r : Text} (h : skipSpace t = 125 :: r) : ValueRead n (123 :: t) (.obj []) r
  | object {t r : Text} {members : List (Text × Json)} (hne : (skipSpace t).head? ≠ some 125)
      (h : parseMembers n (skipSpace t) = some (members, r)) :
        ValueRead n (123 :: t) (.obj members) r
  | emptyArray {t r : Text} (h : skipSpace t = 93 :: r) : ValueRead n (91 :: t) (.arr []) r
  | array {t r : Text} {items : List Json} (hne : (skipSpace t).head? ≠ some 93)
      (h : parseItems n (skipSpace t) = some (items, r)) : ValueRead n (91 :: t) (.arr items) r
  | string {t r s : Text} (h : parseChars t = some (s, r)) : ValueRead n (34 :: t) (.str s) r
  | literal {word r : Text} {v : Json} (h : (word, v) ∈ literals) : ValueRead n (word ++ r) v r
  | number {t r : Text} {v : Json} (h : parseNumber t = some (v, r)) : ValueRead n t v r

section Calls

variable {n : ℕ} {t r : Text} {v : Json}

/-- A numeral begins with a sign or a digit. -/
theorem parseNumber_head {p : Json × Text} (h : parseNumber t = some p) :
    ∃ c u, t = c :: u ∧ (c = 45 ∨ isDigit c = true) := by
  have hempty : parseInt [] = none := rfl
  cases t with
  | nil =>
    unfold parseNumber at h
    simp [hempty] at h
  | cons c u =>
    refine ⟨c, u, rfl, ?_⟩
    by_cases hsign : c = 45
    · exact .inl hsign
    · refine .inr ?_
      by_contra hdigit
      have hint : parseInt (c :: u) = none := by
        unfold parseInt
        rw [List.takeWhile_cons_of_neg hdigit]
        rfl
      unfold parseNumber at h
      simp [hsign, hint] at h

/-- A word at the start of a text. -/
theorem eq_append_of_isPrefixOf {word u : Text} (h : word.isPrefixOf u = true) :
    u = word ++ u.drop word.length := by
  obtain ⟨rest, rfl⟩ := List.isPrefixOf_iff_prefix.mp h
  rw [List.drop_left]

theorem parseValue_iff : parseValue (n + 1) t = some (v, r) ↔ ValueRead n (skipSpace t) v r := by
  rw [parseValue]
  constructor
  · intro h
    split at h
    · cases h
    · rename_i c u hstart
      rw [hstart]
      split_ifs at h with hobject harray hstring htrue hfalse hnull
      · subst hobject
        split at h
        · rename_i w hclose
          obtain ⟨rfl, rfl⟩ := Prod.mk.inj (Option.some.inj h)
          exact .emptyObject hclose
        · rename_i hopen
          obtain ⟨⟨members, w⟩, hmembers, heq⟩ := Option.map_eq_some_iff.mp h
          obtain ⟨rfl, rfl⟩ := Prod.mk.inj heq
          refine .object (fun hhead => ?_) hmembers
          obtain ⟨w, hw⟩ := List.head?_eq_some_iff.mp hhead
          exact hopen w hw
      · subst harray
        split at h
        · rename_i w hclose
          obtain ⟨rfl, rfl⟩ := Prod.mk.inj (Option.some.inj h)
          exact .emptyArray hclose
        · rename_i hopen
          obtain ⟨⟨items, w⟩, hitems, heq⟩ := Option.map_eq_some_iff.mp h
          obtain ⟨rfl, rfl⟩ := Prod.mk.inj heq
          refine .array (fun hhead => ?_) hitems
          obtain ⟨w, hw⟩ := List.head?_eq_some_iff.mp hhead
          exact hopen w hw
      · subst hstring
        obtain ⟨⟨s, w⟩, hchars, heq⟩ := Option.map_eq_some_iff.mp h
        obtain ⟨rfl, rfl⟩ := Prod.mk.inj heq
        exact .string hchars
      · obtain ⟨rfl, rfl⟩ := Prod.mk.inj (Option.some.inj h)
        rw [eq_append_of_isPrefixOf htrue]
        exact .literal (by simp [literals])
      · obtain ⟨rfl, rfl⟩ := Prod.mk.inj (Option.some.inj h)
        rw [eq_append_of_isPrefixOf hfalse]
        exact .literal (by simp [literals])
      · obtain ⟨rfl, rfl⟩ := Prod.mk.inj (Option.some.inj h)
        rw [eq_append_of_isPrefixOf hnull]
        exact .literal (by simp [literals])
      · exact .number h
  · intro h
    generalize skipSpace t = text at h
    cases h with
    | emptyObject h => simp [h]
    | object hne h =>
      simp only [if_true]
      split
      · rename_i w hclose
        rw [hclose] at hne
        exact absurd rfl hne
      · rw [h]
        rfl
    | emptyArray h => simp [h]
    | array hne h =>
      simp only [show (91 : ℕ) ≠ 123 by decide, if_false, if_true]
      split
      · rename_i w hclose
        rw [hclose] at hne
        exact absurd rfl hne
      · rw [h]
        rfl
    | string h => simp [h]
    | literal h =>
      simp only [literals, List.mem_cons, Prod.mk.injEq, List.not_mem_nil, or_false] at h
      rcases h with ⟨rfl, rfl⟩ | ⟨rfl, rfl⟩ | ⟨rfl, rfl⟩ <;> rfl
    | number h =>
      obtain ⟨c, u, rfl, hc⟩ := parseNumber_head h
      have hlow : c < 58 := by
        rcases hc with rfl | hc
        · decide
        · simp only [isDigit, Bool.and_eq_true, decide_eq_true_eq] at hc
          exact hc.2
      have hquote : c ≠ 34 := by
        rintro rfl
        rcases hc with hc | hc <;> cases hc
      have hword : ∀ d word, 58 ≤ d → (d :: word).isPrefixOf (c :: u) = false := by
        intro d word hd
        have hne : d ≠ c := by omega
        simp [List.isPrefixOf, hne]
      have htrue : (lit "true").isPrefixOf (c :: u) = false := hword 116 _ (by decide)
      have hfalse : (lit "false").isPrefixOf (c :: u) = false := hword 102 _ (by decide)
      have hnull : (lit "null").isPrefixOf (c :: u) = false := hword 110 _ (by decide)
      simp only [show c ≠ 123 by omega, show c ≠ 91 by
        omega, hquote, if_false, htrue, hfalse, hnull, Bool.false_eq_true]
      exact h

theorem parseItems_iff {items : List Json} : parseItems (n + 1) t = some (items, r) ↔
    ∃ v u, parseValue n t = some (v, u) ∧ ((skipSpace u = 93 :: r ∧ items = [v]) ∨
      ∃ w rest, skipSpace u = 44 :: w ∧ parseItems n w = some (rest, r) ∧ items = v :: rest) := by
  constructor
  · intro h
    rw [parseItems] at h
    cases hvalue : parseValue n t with
    | none => simp [hvalue] at h
    | some value =>
      obtain ⟨v, u⟩ := value
      simp only [hvalue, Option.bind_eq_bind, Option.bind_some] at h
      refine ⟨v, u, rfl, ?_⟩
      split at h
      · rename_i w hcomma
        cases hrest : parseItems n w with
        | none => simp [hrest] at h
        | some rest =>
          simp only [hrest, Option.bind_some, Option.some.injEq, Prod.mk.injEq] at h
          obtain ⟨rfl, rfl⟩ := h
          exact .inr ⟨w, rest.1, hcomma, hrest, rfl⟩
      · rename_i hbracket
        simp only [Option.some.injEq, Prod.mk.injEq] at h
        obtain ⟨rfl, rfl⟩ := h
        exact .inl ⟨hbracket, rfl⟩
      · cases h
  · rintro ⟨v, u, hvalue, ⟨hbracket, rfl⟩ | ⟨w, rest, hcomma, hrest, rfl⟩⟩
    · rw [parseItems]
      simp [hvalue, hbracket]
    · rw [parseItems]
      simp [hvalue, hcomma, hrest]

theorem parseMembers_iff {members : List (Text × Json)} :
    parseMembers (n + 1) t = some (members, r) ↔
    ∃ u k w x v y, skipSpace t = 34 :: u ∧ parseChars u = some (k, w) ∧ skipSpace w = 58 :: x ∧
      parseValue n x = some (v, y) ∧ ((skipSpace y = 125 :: r ∧ members = [(k, v)]) ∨
        ∃ z rest, skipSpace y = 44 :: z ∧ parseMembers n z = some (rest, r) ∧
          members = (k, v) :: rest) := by
  constructor
  · intro h
    rw [parseMembers] at h
    split at h
    · rename_i u hquote
      cases hkey : parseChars u with
      | none => simp [hkey] at h
      | some key =>
        obtain ⟨k, w⟩ := key
        simp only [hkey, Option.bind_eq_bind, Option.bind_some] at h
        split at h
        · rename_i x hcolon
          cases hvalue : parseValue n x with
          | none => simp [hvalue] at h
          | some value =>
            obtain ⟨v, y⟩ := value
            simp only [hvalue, Option.bind_some] at h
            refine ⟨u, k, w, x, v, y, hquote, hkey, hcolon, hvalue, ?_⟩
            split at h
            · rename_i z hcomma
              cases hrest : parseMembers n z with
              | none => simp [hrest] at h
              | some rest =>
                simp only [hrest, Option.bind_some, Option.some.injEq, Prod.mk.injEq] at h
                obtain ⟨rfl, rfl⟩ := h
                exact .inr ⟨z, rest.1, hcomma, hrest, rfl⟩
            · rename_i hbrace
              simp only [Option.some.injEq, Prod.mk.injEq] at h
              obtain ⟨rfl, rfl⟩ := h
              exact .inl ⟨hbrace, rfl⟩
            · cases h
        · cases h
    · cases h
  · rintro ⟨u, k, w, x, v, y, hquote, hkey, hcolon, hvalue,
      ⟨hbrace, rfl⟩ | ⟨z, rest, hcomma, hrest, rfl⟩⟩
    · rw [parseMembers, hquote]
      simp [hkey, hcolon, hvalue, hbrace]
    · rw [parseMembers, hquote]
      simp [hkey, hcolon, hvalue, hcomma, hrest]

end Calls

/-! ### Stretches of text -/

/-- A unit that may stand outside the strings of a text. -/
def isStructural (c : ℕ) : Bool := isSpace c || isDigit c || c ∈ lit "{}[],:+-.Eaeflnrstu"

/-- From the one text on the other is left once units outside of strings and so many strings have
been read. -/
inductive Spans : ℕ → Text → Text → Prop
  | done (r : Text) : Spans 0 r r
  | unit {n c : ℕ} {t r : Text} (h : isStructural c = true) (rest : Spans n t r) :
      Spans n (c :: t) r
  | string {n : ℕ} {s t u r : Text} (h : parseChars t = some (s, u)) (rest : Spans n u r) :
      Spans (n + 1) (34 :: t) r

mutual

/-- The number of strings in a value, those of its keys with the rest. -/
def stringCount : Json → ℕ
  | .str _ => 1
  | .arr items => itemsStringCount items
  | .obj members => membersStringCount members
  | .null | .bool _ | .num _ | .infinite => 0

def itemsStringCount : List Json → ℕ
  | [] => 0
  | v :: items => stringCount v + itemsStringCount items

def membersStringCount : List (Text × Json) → ℕ
  | [] => 0
  | (_, v) :: members => 1 + stringCount v + membersStringCount members

end

section Spans

variable {n m : ℕ} {t u r : Text} {v : Json}

theorem Spans.trans (h : Spans n t u) (h' : Spans m u r) : Spans (n + m) t r := by
  induction h with
  | done => rwa [Nat.zero_add]
  | unit hc _ ih => exact .unit hc (ih h')
  | string hchars _ ih =>
    rw [Nat.add_right_comm]
    exact .string hchars (ih h')

theorem spans_append (h : ∀ c ∈ u, isStructural c = true) (r : Text) : Spans 0 (u ++ r) r := by
  induction u with
  | nil => exact .done r
  | cons c u ih => exact .unit (h c List.mem_cons_self) (ih
    fun d hd => h d (List.mem_cons_of_mem _ hd))

theorem spans_dropWhile {p : ℕ → Bool} (hp : ∀ c, p c = true → isStructural c = true) (t : Text) :
    Spans 0 t (t.dropWhile p) := by
  have h := spans_append (u := t.takeWhile p) (fun c hc => hp c (List.mem_takeWhile_imp hc))
    (t.dropWhile p)
  rwa [List.takeWhile_append_dropWhile] at h

theorem isStructural_of_isSpace {c : ℕ} (h : isSpace c = true) : isStructural c = true := by
  unfold isStructural
  rw [h]
  rfl

theorem isStructural_of_isDigit {c : ℕ} (h : isDigit c = true) : isStructural c = true := by
  unfold isStructural
  rw [h, Bool.or_true]
  rfl

theorem spans_skipSpace (t : Text) : Spans 0 t (skipSpace t) :=
  spans_dropWhile (fun _ => isStructural_of_isSpace) t

/-- Blanks and a unit. -/
theorem spans_of_skipSpace {c : ℕ} (hc : isStructural c = true) (h : skipSpace t = c :: u) :
    Spans 0 t u := by
  have hblank := spans_skipSpace t
  rw [h] at hblank
  exact hblank.trans (.unit hc (.done u))

theorem spans_parseInt {ds : Text} (h : parseInt t = some (ds, r)) : Spans 0 t r := by
  unfold parseInt at h
  dsimp only at h
  split at h
  · cases h
  · obtain ⟨-, rfl⟩ := Prod.mk.inj (Option.some.inj h)
    exact spans_dropWhile (fun _ => isStructural_of_isDigit) t

theorem spans_parseFraction {ds : Text} (h : parseFraction t = some (ds, r)) : Spans 0 t r := by
  unfold parseFraction at h
  split at h
  · dsimp only at h
    split at h
    · cases h
    · obtain ⟨-, rfl⟩ := Prod.mk.inj (Option.some.inj h)
      exact .unit (by decide) (spans_dropWhile (fun _ => isStructural_of_isDigit) _)
  · obtain ⟨-, rfl⟩ := Prod.mk.inj (Option.some.inj h)
    exact .done _

/-- A sign that may stand in front of an exponent. -/
theorem spans_sign (t : Text) :
    Spans 0 t (if t.head? = some 45 || t.head? = some 43 then t.tail else t) := by
  split
  · rename_i hsign
    cases t with
    | nil => exact .done _
    | cons d t =>
      have hd : isStructural d = true := by
        simp only [List.head?_cons, Option.some.injEq, Bool.or_eq_true, decide_eq_true_eq] at hsign
        rcases hsign with rfl | rfl <;> decide
      exact .unit hd (.done t)
  · exact .done t

theorem spans_parseExponent {e : ℤ} (h : parseExponent t = some (e, r)) : Spans 0 t r := by
  unfold parseExponent at h
  split at h
  · rename_i c t
    split at h
    · rename_i hc
      have hunit : isStructural c = true := by
        simp only [Bool.or_eq_true, decide_eq_true_eq] at hc
        rcases hc with rfl | rfl <;> decide
      have hsign := spans_sign t
      dsimp only at h
      generalize (if t.head? = some 45 || t.head? = some 43 then t.tail else t) = u at h hsign
      split at h
      · cases h
      · obtain ⟨-, rfl⟩ := Prod.mk.inj (Option.some.inj h)
        exact .unit hunit (hsign.trans (spans_dropWhile (fun _ => isStructural_of_isDigit) u))
    · obtain ⟨-, rfl⟩ := Prod.mk.inj (Option.some.inj h)
      exact .done _
  · obtain ⟨-, rfl⟩ := Prod.mk.inj (Option.some.inj h)
    exact .done _

theorem spans_parseNumber (h : parseNumber t = some (v, r)) : Spans (stringCount v) t r := by
  have hcount : ∀ d, stringCount (ofDouble d) = 0 := fun d => by cases d <;> rfl
  unfold parseNumber at h
  simp only [Option.bind_eq_bind, Option.bind_eq_some_iff] at h
  obtain ⟨⟨int, t₁⟩, hint, ⟨frac, t₂⟩, hfrac, ⟨exp, t₃⟩, hexp, heq⟩ := h
  obtain ⟨rfl, rfl⟩ := Prod.mk.inj (Option.some.inj heq)
  rw [hcount]
  have hrest := ((spans_parseInt hint).trans (spans_parseFraction hfrac)).trans
    (spans_parseExponent hexp)
  split at hrest
  · rename_i hsign
    cases t with
    | nil => exact hrest
    | cons c t =>
      obtain rfl : c = 45 := by simpa using hsign
      exact .unit (by decide) hrest
  · exact hrest

/-- **What the reader takes**, for a value, for items and for members. -/
theorem spans_parse (n : ℕ) :
    (∀ t v r, parseValue n t = some (v, r) → Spans (stringCount v) t r) ∧
    (∀ t items r, parseItems n t = some (items, r) → Spans (itemsStringCount items) t r) ∧
    (∀ t members r, parseMembers n t = some (members, r) →
      Spans (membersStringCount members) t r) := by
  induction n with
  | zero =>
    refine ⟨?_, ?_, ?_⟩ <;>
    · intro _ _ _ h
      cases h
  | succ n ih =>
    obtain ⟨ihvalue, ihitems, ihmembers⟩ := ih
    refine ⟨?_, ?_, ?_⟩
    · intro t v r h
      have hvalue := parseValue_iff.mp h
      rw [← Nat.zero_add (stringCount v)]
      refine (spans_skipSpace t).trans ?_
      generalize skipSpace t = text at hvalue
      cases hvalue with
      | emptyObject h => exact .unit (by decide) (spans_of_skipSpace (by decide) h)
      | @object t _ members _ h =>
        refine .unit (by decide) ?_
        rw [stringCount, ← Nat.zero_add (membersStringCount members)]
        exact (spans_skipSpace t).trans (ihmembers _ _ _ h)
      | emptyArray h => exact .unit (by decide) (spans_of_skipSpace (by decide) h)
      | @array t _ items _ h =>
        refine .unit (by decide) ?_
        rw [stringCount, ← Nat.zero_add (itemsStringCount items)]
        exact (spans_skipSpace t).trans (ihitems _ _ _ h)
      | string h => exact .string h (.done _)
      | @literal word r v h =>
        have hunits : ∀ p ∈ literals, (∀ c ∈ p.1, isStructural c = true) ∧ stringCount p.2 = 0 := by
          simp only [literals, List.forall_mem_cons]
          exact ⟨⟨by decide, rfl⟩, ⟨by decide, rfl⟩, ⟨by decide, rfl⟩, by simp⟩
        rw [(hunits _ h).2]
        exact spans_append (hunits _ h).1 r
      | number h => exact spans_parseNumber h
    · intro t items r h
      obtain ⟨v, u, hvalue, ⟨hbracket, rfl⟩ | ⟨w, rest, hcomma, hrest, rfl⟩⟩ := parseItems_iff.mp h
      · exact (ihvalue _ _ _ hvalue).trans (spans_of_skipSpace (by decide) hbracket)
      · rw [itemsStringCount, ← Nat.zero_add (itemsStringCount rest)]
        exact (ihvalue _ _ _ hvalue).trans
          ((spans_of_skipSpace (by decide) hcomma).trans (ihitems _ _ _ hrest))
    · intro t members r h
      obtain ⟨u, k, w, x, v, y, hquote, hkey, hcolon, hvalue, hend⟩ := parseMembers_iff.mp h
      have hmember : Spans (1 + stringCount v) t y := by
        rw [← Nat.zero_add (1 + stringCount v)]
        have hstart := spans_skipSpace t
        rw [hquote] at hstart
        refine hstart.trans ?_
        rw [Nat.add_comm]
        refine .string hkey ?_
        rw [← Nat.zero_add (stringCount v)]
        exact (spans_of_skipSpace (by decide) hcolon).trans (ihvalue _ _ _ hvalue)
      rcases hend with ⟨hbrace, rfl⟩ | ⟨z, rest, hcomma, hrest, rfl⟩
      · exact hmember.trans (spans_of_skipSpace (by decide) hbrace)
      · rw [membersStringCount, ← Nat.zero_add (membersStringCount rest)]
        exact hmember.trans ((spans_of_skipSpace (by decide) hcomma).trans (ihmembers _ _ _ hrest))

/-- A text that reads as a value. -/
theorem spans_of_parse (h : parse t = some v) : Spans (stringCount v) t [] := by
  unfold parse at h
  split at h
  · rename_i w r hvalue
    split at h
    · rename_i hblank
      obtain rfl := Option.some.inj h
      have hspans := (spans_parse _).1 _ _ _ hvalue
      have hend := spans_skipSpace r
      rw [hblank] at hend
      exact hspans.trans hend
    · cases h
  · cases h

end Spans

end Json

end Ecma

import Newsdeck.Ecma.JsonPlaces
import Newsdeck.Runner.Redaction

/-!
# What redaction cuts out of JSON

The patterns know nothing of quotation marks and escapes; where they are applied to the text of a
JSON value, what they cut out may reach across the end of a string.

* `Seam` — what can be said of either end of what is cut out;
* `seam_of_run` — a match: what is kept of it on either side, and a seam between;
* `Seam.edit` — without a quotation mark in it, what is cut out lies within one string;
* `Contained` — a match that takes no quotation mark, and changes no key;
* `refilled_pass` — a pass with contained matches refills the strings of the text.
-/

namespace Newsdeck.Runner

open Ecma Regex Masking

/-- What is cut out stands behind a sign of equality, in front of a host, or begins with a word that
no other place has; where it ends no escape has been begun. -/
structure Seam (b r l x : Text) : Prop where
  mem_masks : l ∈ masks
  front : b.head? = some 61 ∨ (b.head? = some 58 ∧ x.head? = some 64) ∨
    (Fresh b ∧ ∃ word ∈ credentialWords, word <+: r) ∨ lit "-----BEGIN " <+: r
  back : 92 ∉ r ∨ r.getLast? = some 45 ∨ ∀ c ∈ x.head?, c = 64 ∨ isSpace c = true

section Seams

variable {b r l x : Text}

theorem CredentialCut.seam {credential : Credential} (h : CredentialCut credential b r l x) :
    Seam b r l x := by
  refine ⟨h.mask ▸ credential.mem_masks, .inr (.inr (.inl ⟨h.fresh, credential.word r h.form⟩)),
    .inl ?_⟩
  intro hmem
  cases credential.units r h.form 92 hmem

theorem KeyCut.seam (h : KeyCut b r l x) : Seam b r l x := by
  refine ⟨by rw [h.mask]; decide, .inr (.inr (.inr ?_)), .inr (.inl h.block.ends.2)⟩
  obtain ⟨_, middle, _, rfl, ⟨kind, rfl, -⟩, -⟩ := h.block
  rw [List.append_assoc]
  exact List.prefix_append _ _

theorem AssignmentCut.seam (h : AssignmentCut b r l x) : Seam b r l x :=
  ⟨by rw [h.mask]; decide, .inl h.sign, .inr (.inr fun c hc => .inr (h.ends c hc))⟩

theorem PasswordCut.seam (h : PasswordCut b r l x) : Seam b r l x := by
  refine ⟨by rw [h.mask]; decide, .inr (.inl ⟨h.colon, h.host⟩), .inr (.inr fun c hc => .inl ?_)⟩
  exact Option.some.inj (hc.symm.trans h.host)

/-- A match, what is kept of it in front, what is cut out, the mask, and what is kept behind. -/
structure Sewn (b m label x k r l e : Text) : Prop where
  taken : m = k ++ (r ++ e)
  put : label = k ++ (l ++ e)
  seam : Seam (k.reverse ++ b) r l (e ++ x)
  front : k = [] ∨ k.getLast? = some 61 ∨ k.getLast? = some 58
  back : e = [] ∨ e = [64]

/-- **Every match is cut out with a seam at either end.** -/
theorem seam_of_run {entry : RedactionPattern} {m : Text} {caps : Captures ℕ}
    (hentry : entry ∈ redactionPatterns)
    (hrun : entry.pattern.run done ⟨b, m ++ x⟩ [] = some (⟨m.reverse ++ b, x⟩, caps)) :
    ∃ k r l e, Sewn b m (entry.label caps) x k r l e := by
  have htakes := takes_of_run_done hrun
  rcases entry_cases hentry with ⟨credential, -, rfl⟩ | rfl | rfl | rfl
  · obtain ⟨hfresh, m', x', hsplit, hform, hbounded, heq⟩ := (credential.takes_iff _ _ _).mp htakes
    obtain ⟨rfl, rfl, rfl⟩ := eq_of_cursor_eq hsplit heq
    have hcut : CredentialCut credential b m credential.mask x :=
      ⟨rfl, hfresh, hform, hbounded, credential.stops b m x hform hrun⟩
    exact ⟨[], m, credential.mask, [], by simp, by
      rw [credential.label_eq]; simp, hcut.seam, .inl rfl, .inl rfl⟩
  · obtain ⟨m', x', hsplit, hblock, heq⟩ := takes_privateKey.mp htakes
    obtain ⟨rfl, rfl, rfl⟩ := eq_of_cursor_eq hsplit heq
    have hcut : KeyCut b m (lit "[redacted:private-key]") x := ⟨rfl, hblock⟩
    exact ⟨[], m, _, [], by simp, rfl, hcut.seam, .inl rfl, .inl rfl⟩
  · obtain ⟨-, name, v, x', hsplit, hname, hne, hv, heq⟩ := takes_assignment.mp htakes
    obtain ⟨rfl, rfl, rfl⟩ := eq_of_cursor_eq (by simpa using hsplit) heq
    have hcut : AssignmentCut ((name ++ [61]).reverse ++ b) v (lit "[redacted]") x :=
      ⟨rfl, hne, hv, by simp, assignment_stops hrun⟩
    refine ⟨name ++ [61], v, lit "[redacted]", [],
      by simp, ?_, hcut.seam, .inr (.inl (by simp)), .inl rfl⟩
    show groupText 1 [(1, name)] ++ lit "=[redacted]" = _
    rw [show groupText 1 [(1, name)] = name from rfl]
    simp [lit]
  · obtain ⟨-, login, scheme, user, v, x', hsplit, hlogin, hne, hv, heq⟩ :=
      takes_connection.mp htakes
    obtain ⟨rfl, rfl, rfl⟩ := eq_of_cursor_eq (by simpa using hsplit) heq
    have hcolon : (login.reverse ++ b).head? = some 58 := by
      rw [List.head?_append_of_ne_nil _ (by simpa using hlogin.ne_nil), List.head?_reverse,
        hlogin.getLast?]
    have hcut : PasswordCut (login.reverse ++ b) v (lit "[redacted]") (64 :: x) :=
      ⟨rfl, hne, hv, hcolon, rfl⟩
    refine ⟨login, v, lit "[redacted]", [64],
      by simp, ?_, hcut.seam, .inr (.inr hlogin.getLast?), .inr rfl⟩
    have hscheme : groupText 1 [(2, user), (1, scheme ++ [58])] = scheme ++ [58] := rfl
    have huser : groupText 2 [(2, user), (1, scheme ++ [58])] = user := rfl
    show groupText 1 _ ++ lit "//" ++ groupText 2 _ ++ lit ":[redacted]@" = _
    rw [hscheme, huser, hlogin.eq]
    simp [lit]

end Seams

/-! ### Within a string -/

/-- No escape has such a unit. -/
def Blunt (c : ℕ) : Prop := c ≠ 117 ∧ Json.unescape c = none ∧ Json.hexValue c = none

instance decidableBlunt (c : ℕ) : Decidable (Blunt c) :=
  inferInstanceAs (Decidable (c ≠ 117 ∧ Json.unescape c = none ∧ Json.hexValue c = none))

theorem isWord_of_hexValue {c : ℕ} (h : (Json.hexValue c).isSome = true) : isWord c = true := by
  unfold Json.hexValue at h
  simp only [isWord, isLetter, isUpper, isLower, isDigit, Bool.or_eq_true, Bool.and_eq_true,
    decide_eq_true_eq] at h ⊢
  split_ifs at h <;> first | omega | cases h

theorem blunt_of_isSpace {c : ℕ} (h : isSpace c = true) : Blunt c := by
  have hword := isWord_of_isSpace h
  refine ⟨?_, ?_, ?_⟩
  · rintro rfl
    cases hword
  · unfold Json.unescape
    split_ifs with h₁ h₂ h₃ h₄ h₅ h₆ h₇ h₈
    all_goals first
      | rfl
      | (subst c; cases h)
  · by_contra hvalue
    rw [isWord_of_hexValue (Option.isSome_iff_ne_none.mpr hvalue)] at hword
    cases hword

section Within

variable {p q : Json.Place} {b r l x word : Text} {c : ℕ}

/-- In front of a unit that no escape has, none has been begun. -/
theorem Blunt.place (hc : Blunt c) (h : p.next c = some q) : p = .outside ∨ p = .inside := by
  obtain ⟨hunicode, hescape, hvalue⟩ := hc
  cases p with
  | outside => exact .inl rfl
  | inside => exact .inr rfl
  | escape => simp [Json.Place.next, hunicode, hescape] at h
  | hex digits => simp [Json.Place.next, hvalue] at h

/-- The place behind the last unit. -/
theorem next_of_lex_reverse (hc : b.head? = some c) (h : Json.lex .outside b.reverse = some q) :
    ∃ p : Json.Place, p.next c = some q := by
  obtain ⟨b, rfl⟩ := List.head?_eq_some_iff.mp hc
  rw [List.reverse_cons, Json.lex_append] at h
  obtain ⟨p, -, hnext⟩ := Option.bind_eq_some_iff.mp h
  obtain ⟨p', hp', hq⟩ := Option.bind_eq_some_iff.mp hnext
  obtain rfl := Option.some.inj hq
  exact ⟨p, hp'⟩

/-- Within the digits of an escape a unit of a word stands in front. -/
theorem not_fresh_of_hex {digits : Text} (h : Json.lex .outside b.reverse = some (.hex digits)) :
    ¬ Fresh b := by
  intro hfresh
  cases b with
  | nil => cases h
  | cons c b =>
    obtain ⟨p, hnext⟩ := next_of_lex_reverse rfl h
    have hword := hfresh c rfl
    cases p with
    | outside =>
      simp only [Json.Place.next] at hnext
      split_ifs at hnext <;> cases hnext
    | inside =>
      simp only [Json.Place.next] at hnext
      split_ifs at hnext <;> cases hnext
    | escape =>
      simp only [Json.Place.next] at hnext
      split_ifs at hnext with hunicode
      · rw [hunicode] at hword
        cases hword
      · cases hnext
    | hex digits' =>
      simp only [Json.Place.next] at hnext
      split_ifs at hnext with hvalue
      · cases hnext
      · rw [isWord_of_hexValue hvalue] at hword
        cases hword

theorem lex_of_start (hword : word <+: r) (h : Json.lex q word = none) (x : Text) :
    Json.lex q (r ++ x) = none := by
  obtain ⟨rest, rfl⟩ := hword
  rw [List.append_assoc, Json.lex_append, h]
  rfl

/-- Without a quotation mark in it and a host behind, nothing is cut out outside of the strings. -/
theorem not_outside_of_host (hquotes : Json.quotesIn false r = 0) (hx : x.head? = some 64) :
    Json.lex .outside (r ++ x) = none := by
  induction r with
  | nil =>
    obtain ⟨x, rfl⟩ := List.head?_eq_some_iff.mp hx
    rfl
  | cons c r ih =>
    rw [Json.quotesIn] at hquotes
    rw [List.cons_append, Json.lex_cons, Json.Place.next]
    split_ifs at hquotes with hslash hquote
    · rw [hslash]
      rfl
    · rw [if_neg hquote]
      by_cases hunit : Json.isStructural c = true
      · rw [if_pos hunit]
        exact ih hquotes
      · rw [if_neg hunit]
        rfl

/-- **What is cut out begins in a string.** -/
theorem Seam.inside (h : Seam b r l x) (hquotes : Json.quotesIn false r = 0)
    (hb : Json.lex .outside b.reverse = some q) (hq : Json.lex q (r ++ x) ≠ none) :
      q = .inside := by
  rcases h.front with hsign | ⟨hcolon, hhost⟩ | ⟨hfresh, word, hmem, hword⟩ | hword
  · obtain ⟨p, hp⟩ := next_of_lex_reverse hsign hb
    rcases Blunt.place (by decide) hp with rfl | rfl
    · cases hp
    · exact (Option.some.inj hp).symm
  · obtain ⟨p, hp⟩ := next_of_lex_reverse hcolon hb
    rcases Blunt.place (by decide) hp with rfl | rfl
    · obtain rfl := Option.some.inj hp
      exact absurd (not_outside_of_host hquotes hhost) hq
    · exact (Option.some.inj hp).symm
  · have hwords : ∀ word ∈ credentialWords, Json.lex .outside word = none ∧
      Json.lex .escape word = none := by
      decide
    cases q with
    | outside => exact absurd (lex_of_start hword (hwords word hmem).1 x) hq
    | inside => rfl
    | escape => exact absurd (lex_of_start hword (hwords word hmem).2 x) hq
    | hex digits => exact absurd hfresh (not_fresh_of_hex hb)
  · cases q with
    | outside => exact absurd (lex_of_start hword (by decide) x) hq
    | inside => rfl
    | escape => exact absurd (lex_of_start hword (by decide) x) hq
    | hex digits => exact absurd (lex_of_start hword (by rfl) x) hq

/-- Only a backslash begins an escape. -/
theorem place_of_not_mem (hslash : 92 ∉ r) (hp : p = .outside ∨ p = .inside)
    (h : Json.lex p r = some q) :
    q = .outside ∨ q = .inside := by
  induction r generalizing p with
  | nil =>
    obtain rfl := Option.some.inj h
    exact hp
  | cons c r ih =>
    rw [List.mem_cons, not_or] at hslash
    obtain ⟨p', hp', hrest⟩ := Option.bind_eq_some_iff.mp h
    refine ih hslash.2 ?_ hrest
    rcases hp with rfl | rfl <;>
    · simp only [Json.Place.next] at hp'
      split_ifs at hp' <;> cases hp' <;> first | exact .inl rfl | exact .inr rfl | omega

/-- **It ends in the same string**, with no escape begun. -/
theorem Seam.ends (h : Seam b r l x) (hquotes : Json.quotesIn false r = 0)
    (hq : Json.lex .inside (r ++ x) = some .outside) : Json.lex .inside r = some .inside := by
  rw [Json.lex_append] at hq
  obtain ⟨p, hp, hrest⟩ := Option.bind_eq_some_iff.mp hq
  have hne : p ≠ .outside := Json.ne_outside_of_lex (q := .inside) (by decide) hquotes hp
  suffices hplace : p = .outside ∨ p = .inside by
    rw [hp, hplace.resolve_left hne]
  rcases h.back with hslash | hlast | hfollows
  · exact place_of_not_mem hslash (.inr rfl) hp
  · obtain ⟨r, rfl⟩ := List.getLast?_eq_some_iff.mp hlast
    rw [Json.lex_append] at hp
    obtain ⟨p', -, hnext⟩ := Option.bind_eq_some_iff.mp hp
    obtain ⟨p'', hp'', heq⟩ := Option.bind_eq_some_iff.mp hnext
    obtain rfl := Option.some.inj heq
    rcases Blunt.place (by decide) hp'' with rfl | rfl
    · obtain rfl := Option.some.inj hp''
      exact .inl rfl
    · obtain rfl := Option.some.inj hp''
      exact .inr rfl
  · cases x with
    | nil => exact .inl (Option.some.inj hrest)
    | cons c x =>
      obtain ⟨p', hp', -⟩ := Option.bind_eq_some_iff.mp hrest
      refine Blunt.place ?_ hp'
      rcases hfollows c rfl with rfl | hspace
      · decide
      · exact blunt_of_isSpace hspace

theorem body_of_mem_masks : ∀ l ∈ masks, Json.Body l := by
  have hplaces : ∀ l ∈ masks, Json.quotesIn false l = 0 ∧
    Json.lex .inside l = some .inside := by decide
  intro l hl
  exact Json.body_of_lex (q := .inside) trivial (by decide) (hplaces l hl).1 (hplaces l hl).2

/-- **What is cut out without a quotation mark in it lies within one string.** -/
theorem Seam.edit (h : Seam b r l x) (hquotes : Json.quotesIn false r = 0)
    (hkey : Json.closesKey false x = true → l = r) : Json.Edit b r l x where
  place q hb hq := by
    have hne : Json.lex q (r ++ x) ≠ none := by rw [hq]; exact Option.some_ne_none _
    obtain rfl := h.inside hquotes hb hne
    exact ⟨rfl, h.ends hquotes hq⟩
  quotes := hquotes
  body := body_of_mem_masks l h.mem_masks
  key := hkey

end Within

/-! ### Contained matches -/

/-- A match with as many quotation marks as what is put in its place, which is the match itself in a
key. -/
def Contained (m label x : Text) : Prop :=
  Json.quotesIn false m = Json.quotesIn false label ∧ (Json.closesKey false x = true → label = m)

instance decidableContained (m label x : Text) : Decidable (Contained m label x) :=
  inferInstanceAs (Decidable (_ ∧ _))

section Contained

variable {entry : RedactionPattern} {b m label x y k r l e : Text}

theorem plain_of_mem_masks : ∀ l ∈ masks, 34 ∉ l ∧ 92 ∉ l := by decide

theorem quotesIn_mask (hl : l ∈ masks) (t : Text) :
    Json.quotesIn false (l ++ t) = Json.quotesIn false t := by
  obtain ⟨hquote, hslash⟩ := plain_of_mem_masks l hl
  rw [Json.quotesIn_append, Json.quotesIn_of_not_mem hquote hslash, Json.pending_of_not_mem hslash,
    Nat.zero_add]

/-- What is kept in front leaves no escape begun. -/
theorem Sewn.pending_front (h : Sewn b m label x k r l e) : Json.pending false k = false := by
  rcases h.front with rfl | hsign | hcolon
  · rfl
  · exact Json.pending_of_getLast? (by decide) hsign false
  · exact Json.pending_of_getLast? (by decide) hcolon false

theorem Sewn.quotesIn_back (h : Sewn b m label x k r l e) :
    ∀ escaped, Json.quotesIn escaped e = 0 := by
  rcases h.back with rfl | rfl <;> decide

theorem Sewn.quotesIn_taken (h : Sewn b m label x k r l e) :
    Json.quotesIn false m = Json.quotesIn false k + Json.quotesIn false r := by
  rw [h.taken, Json.quotesIn_append, Json.quotesIn_append, h.pending_front, h.quotesIn_back,
    Nat.add_zero]

/-- What is put has the quotation marks of what is kept. -/
theorem Sewn.quotesIn_put (h : Sewn b m label x k r l e) :
    Json.quotesIn false label = Json.quotesIn false k := by
  rw [h.put, Json.quotesIn_append, h.pending_front, quotesIn_mask h.seam.mem_masks, h.quotesIn_back,
    Nat.add_zero]

theorem Sewn.closesKey_back (h : Sewn b m label x k r l e) :
    Json.closesKey false (e ++ x) = Json.closesKey false x := by
  rcases h.back with rfl | rfl <;> rfl

/-- **A contained match is an edit.** -/
theorem Sewn.edit (h : Sewn b m label x k r l e) (hcontained : Contained m label x) :
    Json.Edit (k.reverse ++ b) r l (e ++ x) := by
  obtain ⟨hquotes, hkey⟩ := hcontained
  rw [h.quotesIn_taken, h.quotesIn_put] at hquotes
  refine h.seam.edit (Nat.add_eq_left.mp hquotes) fun hcloses => ?_
  have hsame := hkey (h.closesKey_back ▸ hcloses)
  rw [h.put, h.taken] at hsame
  exact List.append_cancel_right (List.append_cancel_left hsame)

theorem masked_of_contained (hentry : entry ∈ redactionPatterns)
    (h : Replaced entry.pattern entry.label
      (fun _ m caps x => Contained m (entry.label caps) x) b x y) (b' : Text) :
    Masked (fun _ _ => True) Json.Edit b b' x y := by
  induction h generalizing b' with
  | nil b => exact .nil b b'
  | skip _ _ ih => exact .keep trivial (ih _)
  | @found b m x y caps _ hrun hP _ ih =>
    obtain ⟨k, r, l, e, hsewn⟩ := seam_of_run hentry hrun
    have hrest := ih (e.reverse ++ (l.reverse ++ (k.reverse ++ b')))
    have hedit := hsewn.edit hP
    obtain ⟨rfl, hput, -, -, -⟩ := hsewn
    rw [hput, List.append_assoc, List.append_assoc, List.append_assoc, List.append_assoc]
    refine Masked.keeps (fun _ _ _ _ => trivial)
      (.mask hedit (Masked.keeps (fun _ _ _ _ => trivial) ?_))
    simpa using hrest

/-- **A pass with contained matches refills the strings** of a text that ends outside of them. -/
theorem refilled_pass (hentry : entry ∈ redactionPatterns)
    (hx : Json.lex .outside x = some .outside)
    (h : EachMatch entry.pattern (fun _ m caps x => Contained m (entry.label caps) x) x.length
      ⟨[], x⟩) :
    Json.Refilled x (pass entry x) := by
  have hreplaced : Replaced entry.pattern entry.label
    (fun _ m caps x => Contained m (entry.label caps) x) [] x
      (pass entry x) := replaced_replace (consumes_of_mem hentry) h
  exact Json.refilled_of_masked (fun _ _ _ _ hedit => hedit)
    (masked_of_contained hentry hreplaced []) .outside rfl hx

end Contained

end Newsdeck.Runner

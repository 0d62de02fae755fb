import Mathlib.Data.List.Infix
import Mathlib.Order.WellFounded

/-!
# Framing untrusted texts

A document is put together from fixed text and from untrusted *fields*.  When does a pattern occur
in the document?  If every field stands between delimiters that no occurrence of the pattern can
contain, and the fixed text holds no beginning of one, then exactly when it occurs in a field: no
occurrence is built across fields, or out of a field and the text around it.

A pattern is a set of texts.  Two of them are watched together, `P` and `Q`, and the property that
survives composition is `OccursThen P Q`: an occurrence of `P` with one of `Q` behind it.

* `Delimiters` — the heads with which occurrences begin, the units they do not contain (`hard`), the
  units they do not end with (`soft`);
* `Framed` — a text with its fields, in order; closed under concatenation at a neutral unit
  (`Framed.append`);
* `Framed.occurs_iff`, `Framed.occursThen_iff` — what occurs in a framed text occurs in its fields.
-/

namespace Framing

variable {α : Type} {P Q : List α → Prop}

/-- Some text of `P` occurs in `t`. -/
def Occurs (P : List α → Prop) (t : List α) : Prop := ∃ m, P m ∧ m <:+: t

/-- Some text of `P` occurs in `t`, and behind it some text of `Q`. -/
def OccursThen (P Q : List α → Prop) (t : List α) : Prop :=
  ∃ a b, t = a ++ b ∧ Occurs P a ∧ Occurs Q b

/-- `OccursThen` for a list of fields: in one of them, or over two of them in order. -/
def OccursThenIn (P Q : List α → Prop) : List (List α) → Prop
  | [] => False
  | r :: rs => OccursThen P Q r ∨ (Occurs P r ∧ ∃ r' ∈ rs, Occurs Q r') ∨ OccursThenIn P Q rs

theorem Occurs.mono {s t : List α} (h : Occurs P s) (hst : s <:+: t) : Occurs P t := by
  obtain ⟨m, hm, hms⟩ := h
  exact ⟨m, hm, hms.trans hst⟩

theorem OccursThen.fst {t : List α} (h : OccursThen P Q t) : Occurs P t := by
  obtain ⟨a, b, rfl, ha, -⟩ := h
  exact ha.mono List.infix_append_left

theorem OccursThen.snd {t : List α} (h : OccursThen P Q t) : Occurs Q t := by
  obtain ⟨a, b, rfl, -, hb⟩ := h
  exact hb.mono List.infix_append_right

/-! ### Splitting at a unit -/

/-- A text that does not contain `c` occurs on one side of `c`. -/
theorem infix_append_cons_iff {w p q : List α} {c : α} (hc : c ∉ w) :
    w <:+: p ++ c :: q ↔ w <:+: p ∨ w <:+: q := by
  constructor
  · intro h
    rw [List.infix_append_iff_ne_nil, List.infix_cons_iff] at h
    have hhead : ∀ l₂ : List α, l₂ ≠ [] → l₂ <+: c :: q → c ∈ l₂ := by
      intro l₂ hne hpre
      cases l₂ with
      | nil => exact absurd rfl hne
      | cons d l₂ => simp [(List.cons_prefix_cons.mp hpre).1]
    rcases h with h | (h | h) | ⟨l₁, l₂, -, hne, rfl, -, hpre⟩
    · exact .inl h
    · cases w with
      | nil => exact .inl (List.nil_infix)
      | cons d w => exact absurd (hhead _ (by simp) h) hc
    · exact .inr h
    · exact absurd (List.mem_append_right _ (hhead l₂ hne hpre)) hc
  · rintro (h | h)
    · exact h.trans List.infix_append_left
    · exact h.trans ((List.infix_cons (List.infix_refl q)).trans List.infix_append_right)

/-- A text that does not contain `c` is a prefix of what stands before `c`. -/
theorem prefix_of_append_cons {w p q : List α} {c : α} (hc : c ∉ w) (h : w <+: p ++ c :: q) :
    w <+: p := by
  rcases List.prefix_or_prefix_of_prefix h (List.prefix_append (p ++ [c]) q |>.trans (by simp))
    with hw | hw
  · rcases List.prefix_concat_iff.mp (by simpa using hw) with rfl | hw
    · exact absurd (by simp) hc
    · exact hw
  · exact absurd (hw.subset (by simp)) hc

/-- Among the lists with a property there is a shortest one. -/
theorem exists_shortest {S : List α → Prop} (h : ∃ l, S l) :
    ∃ l, S l ∧ ∀ l', S l' → l.length ≤ l'.length := by
  obtain ⟨l, hl, hmin⟩ := (measure (fun l : List α => l.length)).wf.has_min {l | S l} h
  exact ⟨l, hl, fun l' hl' => not_lt.mp (hmin l' hl')⟩

theorem occurs_append_cons {p q : List α} {c : α} (hc : ∀ m, P m → c ∉ m) :
    Occurs P (p ++ c :: q) ↔ Occurs P p ∨ Occurs P q := by
  constructor
  · rintro ⟨m, hm, h⟩
    exact ((infix_append_cons_iff (hc m hm)).mp h).imp (fun h => ⟨m, hm, h⟩) fun h => ⟨m, hm, h⟩
  · rintro (⟨m, hm, h⟩ | ⟨m, hm, h⟩)
    · exact ⟨m, hm, (infix_append_cons_iff (hc m hm)).mpr (.inl h)⟩
    · exact ⟨m, hm, (infix_append_cons_iff (hc m hm)).mpr (.inr h)⟩

theorem occursThen_append_cons {p q : List α} {c : α} (hP : ∀ m, P m → c ∉ m)
    (hQ : ∀ m, Q m → c ∉ m) :
    OccursThen P Q (p ++ c :: q) ↔
      OccursThen P Q p ∨ (Occurs P p ∧ Occurs Q q) ∨ OccursThen P Q q := by
  constructor
  · rintro ⟨a, b, h, ha, hb⟩
    rcases List.append_eq_append_iff.mp h.symm with ⟨s, hp, hb'⟩ | ⟨s, ha', hq⟩
    · -- the cut falls into `p`
      subst hb'
      rcases (occurs_append_cons hQ).mp hb with hb | hb
      · exact .inl ⟨a, s, hp, ha, hb⟩
      · exact .inr (.inl ⟨ha.mono (by rw [hp]; exact List.infix_append_left), hb⟩)
    · cases s with
      | nil =>
        rw [List.append_nil] at ha'
        rw [List.nil_append] at hq
        subst hq
        rw [ha'] at ha
        have hq' := (occurs_append_cons (p := []) hQ).mp hb
        rcases hq' with ⟨m, hm, hnil⟩ | hq'
        · obtain rfl := List.infix_nil.mp hnil
          exact .inr (.inl ⟨ha, [], hm, List.nil_infix⟩)
        · exact .inr (.inl ⟨ha, hq'⟩)
      | cons d s =>
        rw [List.cons_append, List.cons.injEq] at hq
        obtain ⟨rfl, rfl⟩ := hq
        rw [ha'] at ha
        rcases (occurs_append_cons hP).mp ha with ha | ha
        · exact .inr (.inl ⟨ha, hb.mono List.infix_append_right⟩)
        · exact .inr (.inr ⟨s, b, rfl, ha, hb⟩)
  · rintro (⟨a, b, rfl, ha, hb⟩ | ⟨ha, hb⟩ | ⟨a, b, rfl, ha, hb⟩)
    · exact ⟨a, b ++ c :: q, by simp, ha, hb.mono List.infix_append_left⟩
    · exact ⟨p, c :: q, rfl, ha, hb.mono (List.infix_cons (List.infix_refl q))⟩
    · exact ⟨p ++ c :: a, b, by simp, (occurs_append_cons hP).mpr (.inr ha), hb⟩

/-! ### Delimiters -/

/-- What is known about the patterns that are watched. -/
structure Delimiters (α : Type) where
  /-- Every occurrence begins with one of these. -/
  heads : List (List α)
  /-- No occurrence contains one of these units. -/
  hard : α → Prop
  /-- No occurrence ends with one of these units. -/
  soft : α → Prop

namespace Delimiters

variable (D : Delimiters α)

/-- The delimiters bound every text of `P`. -/
structure Bounds (P : List α → Prop) : Prop where
  starts : ∀ m, P m → ∃ h ∈ D.heads, h ≠ [] ∧ h <+: m
  free : ∀ m, P m → ∀ c ∈ m, ¬ D.hard c
  ends : ∀ m, P m → ∀ c ∈ m.getLast?, ¬ D.soft c

/-- A text in which no occurrence begins. -/
def Inert (t : List α) : Prop := ∀ h ∈ D.heads, ¬ h <:+: t

/-- A unit that stands in no head. -/
def Neutral (c : α) : Prop := ∀ h ∈ D.heads, c ∉ h

variable {D}

theorem Inert.append_cons {s t : List α} {c : α} (hs : D.Inert s) (hc : D.Neutral c)
    (ht : D.Inert t) : D.Inert (s ++ c :: t) := fun h hh hocc =>
  ((infix_append_cons_iff (hc h hh)).mp hocc).elim (hs h hh) (ht h hh)

theorem Inert.cons {t : List α} {c : α} (hc : D.Neutral c) (ht : D.Inert t)
    (hnil : [] ∉ D.heads) : D.Inert (c :: t) := by
  have hempty : D.Inert [] := fun h hh hocc => hnil (List.infix_nil.mp hocc ▸ hh)
  exact Inert.append_cons (s := []) hempty hc ht

end Delimiters

variable {D : Delimiters α}

/-- No occurrence begins in fixed text that ends with a neutral unit. -/
theorem infix_of_inert {u t m : List α} {l : α} (hP : D.Bounds P) (hu : D.Inert u)
    (hl : D.Neutral l) (hm : P m) (h : m <:+: u ++ l :: t) : m <:+: t := by
  obtain ⟨s, e, hse⟩ := h
  obtain ⟨head, hhead, hne, hpre⟩ := hP.starts m hm
  rw [List.append_assoc, show u ++ l :: t = (u ++ [l]) ++ t by simp] at hse
  rcases List.append_eq_append_iff.mp hse with ⟨x, hx, hmx⟩ | ⟨x, hx, hmx⟩
  · -- the occurrence begins before `t`; so does its head
    rcases List.eq_nil_or_concat x with rfl | ⟨x', d, rfl⟩
    · rw [List.nil_append] at hmx
      exact ⟨[], e, by simpa using hmx⟩
    · exfalso
      have hd : d = l := by
        have := congrArg List.getLast? hx
        simpa using this.symm
      subst hd
      have hhx : head <+: (x' ++ [d]) ++ t := by
        rw [List.concat_eq_append] at hmx
        rw [← hmx]
        exact hpre.trans (List.prefix_append m e)
      rcases List.prefix_or_prefix_of_prefix hhx (List.prefix_append _ t) with hhx | hhx
      · have : head <:+: u ++ [d] := by
          rw [hx, List.concat_eq_append]
          exact hhx.isInfix.trans List.infix_append_right
        rcases (infix_append_cons_iff (hl head hhead)).mp this with h' | h'
        · exact hu head hhead h'
        · exact hne (List.infix_nil.mp h')
      · exact hl head hhead (hhx.subset (by simp))
  · exact ⟨x, e, by rw [hmx, List.append_assoc]⟩

theorem occurs_of_inert {u t : List α} {l : α} (hP : D.Bounds P) (hu : D.Inert u)
    (hl : D.Neutral l) : Occurs P (u ++ l :: t) ↔ Occurs P t := by
  constructor
  · rintro ⟨m, hm, h⟩
    exact ⟨m, hm, infix_of_inert hP hu hl hm h⟩
  · intro h
    exact h.mono ((List.infix_cons (List.infix_refl t)).trans List.infix_append_right)

theorem not_occurs_inert {t : List α} (hP : D.Bounds P) (ht : D.Inert t) : ¬ Occurs P t := by
  rintro ⟨m, hm, h⟩
  obtain ⟨head, hhead, -, hpre⟩ := hP.starts m hm
  exact ht head hhead (hpre.isInfix.trans h)

theorem occursThen_of_inert {u t : List α} {l : α} (hP : D.Bounds P) (hu : D.Inert u)
    (hl : D.Neutral l) : OccursThen P Q (u ++ l :: t) ↔ OccursThen P Q t := by
  constructor
  · rintro ⟨a, b, h, ha, hb⟩
    rw [show u ++ l :: t = (u ++ [l]) ++ t by simp] at h
    rcases List.append_eq_append_iff.mp h.symm with ⟨x, hx, -⟩ | ⟨x, hx, hbt⟩
    · -- the cut falls into the fixed text: nothing occurs before it
      exfalso
      obtain ⟨m, hm, hma⟩ := ha
      have hmu : m <:+: u ++ l :: [] := hma.trans (by rw [hx]; exact List.infix_append_left)
      obtain rfl := List.infix_nil.mp (infix_of_inert hP hu hl hm hmu)
      obtain ⟨head, -, hne, hpre⟩ := hP.starts [] hm
      exact hne (List.prefix_nil.mp hpre)
    · refine ⟨x, b, hbt, ?_, hb⟩
      rw [hx, List.append_assoc, List.singleton_append] at ha
      exact (occurs_of_inert hP hu hl).mp ha
  · rintro ⟨a, b, rfl, ha, hb⟩
    exact ⟨u ++ l :: a, b, by simp, (occurs_of_inert hP hu hl).mpr ha, hb⟩

/-- No occurrence ends in a tail of soft units. -/
theorem occurs_append_soft {t s : List α} (hP : D.Bounds P) (hs : ∀ c ∈ s, D.soft c) :
    Occurs P (t ++ s) ↔ Occurs P t := by
  constructor
  · rintro ⟨m, hm, h⟩
    rw [List.infix_append_iff_ne_nil] at h
    have hend : ∀ l₁ l₂ : List α, l₂ ≠ [] → m = l₁ ++ l₂ → l₂ <:+: s → False := by
      intro l₁ l₂ hne hm₂ hsub
      have hlast : m.getLast? = some (l₂.getLast hne) := by
        rw [hm₂, List.getLast?_append_of_ne_nil _ hne, List.getLast?_eq_some_getLast hne]
      exact hP.ends m hm _ hlast (hs _ (hsub.subset (List.getLast_mem hne)))
    rcases h with h | h | ⟨l₁, l₂, -, hne, hm₂, -, hpre⟩
    · exact ⟨m, hm, h⟩
    · obtain ⟨head, -, hne, hpre⟩ := hP.starts m hm
      refine (hend [] m ?_ rfl h).elim
      rintro rfl
      exact hne (List.prefix_nil.mp hpre)
    · exact (hend l₁ l₂ hne hm₂ hpre.isInfix).elim
  · intro h
    exact h.mono List.infix_append_left

theorem occursThen_append_soft {t s : List α} (hQ : D.Bounds Q)
    (hs : ∀ c ∈ s, D.soft c) : OccursThen P Q (t ++ s) ↔ OccursThen P Q t := by
  constructor
  · rintro ⟨a, b, h, ha, hb⟩
    rcases List.append_eq_append_iff.mp h.symm with ⟨x, hx, hbx⟩ | ⟨x, hx, hsx⟩
    · subst hbx
      exact ⟨a, x, hx, ha, (occurs_append_soft hQ hs).mp hb⟩
    · exfalso
      obtain ⟨m, hm, hmb⟩ := hb
      have hsoft : Occurs Q ([] ++ s) :=
        ⟨m, hm, hmb.trans (by rw [hsx]; exact List.infix_append_right)⟩
      obtain ⟨m', hm', hnil⟩ := (occurs_append_soft hQ hs).mp hsoft
      obtain rfl := List.infix_nil.mp hnil
      obtain ⟨head, -, hne, hpre⟩ := hQ.starts [] hm'
      exact hne (List.prefix_nil.mp hpre)
  · rintro ⟨a, b, rfl, ha, hb⟩
    exact ⟨a, b ++ s, by simp, ha, hb.mono List.infix_append_left⟩

/-! ### Framed texts -/

/-- A text built from inert parts and the given fields: before each field stands a neutral unit,
behind it soft units and a hard one. -/
inductive Framed (D : Delimiters α) : List α → List (List α) → Prop where
  | inert {t : List α} (ht : D.Inert t) : Framed D t []
  | field {u s t : List α} {l c : α} {rs : List (List α)} (r : List α) (hu : D.Inert u) (hl : D.Neutral l)
      (hs : ∀ x ∈ s, D.soft x) (hc : D.hard c) (ht : Framed D t rs) :
      Framed D (u ++ l :: (r ++ (s ++ c :: t))) (r :: rs)

/-- Prepend inert text that ends with a neutral unit. -/
theorem Framed.prepend {u t : List α} {c : α} {rs : List (List α)} (hu : D.Inert u)
    (hc : D.Neutral c) (ht : Framed D t rs) : Framed D (u ++ c :: t) rs := by
  cases ht with
  | inert ht => exact .inert (hu.append_cons hc ht)
  | field r hu' hl hs hhard ht =>
    have := Framed.field r (hu.append_cons hc hu') hl hs hhard ht
    simpa using this

/-- **Concatenation.**  Framed texts are put together at a neutral unit. -/
theorem Framed.append {s t : List α} {c : α} {rs rs' : List (List α)} (hs : Framed D s rs)
    (hc : D.Neutral c) (ht : Framed D t rs') : Framed D (s ++ c :: t) (rs ++ rs') := by
  induction hs with
  | inert hs => exact ht.prepend hs hc
  | field r hu hl hsoft hhard _ ih =>
    have := Framed.field r hu hl hsoft hhard ih
    simpa using this

theorem Framed.occurs_iff {t : List α} {rs : List (List α)} (hP : D.Bounds P)
    (h : Framed D t rs) : Occurs P t ↔ ∃ r ∈ rs, Occurs P r := by
  induction h with
  | inert ht => simp [not_occurs_inert hP ht]
  | field r hu hl hs hc _ ih =>
    have hfree : ∀ m, P m → _ ∉ m := fun m hm hmem => hP.free m hm _ hmem hc
    rw [occurs_of_inert hP hu hl, ← List.append_assoc, occurs_append_cons hfree,
      occurs_append_soft hP hs, ih]
    simp

/-- **What occurs in a framed text occurs in its fields.** -/
theorem Framed.occursThen_iff {t : List α} {rs : List (List α)} (hP : D.Bounds P)
    (hQ : D.Bounds Q) (h : Framed D t rs) : OccursThen P Q t ↔ OccursThenIn P Q rs := by
  induction h with
  | inert ht =>
    exact ⟨fun h => not_occurs_inert hP ht h.fst, False.elim⟩
  | field r hu hl hs hc ht ih =>
    have hfreeP : ∀ m, P m → _ ∉ m := fun m hm hmem => hP.free m hm _ hmem hc
    have hfreeQ : ∀ m, Q m → _ ∉ m := fun m hm hmem => hQ.free m hm _ hmem hc
    rw [occursThen_of_inert hP hu hl, ← List.append_assoc, occursThen_append_cons hfreeP hfreeQ,
      occursThen_append_soft hQ hs, occurs_append_soft hP hs, ht.occurs_iff hQ, ih]
    rfl

end Framing

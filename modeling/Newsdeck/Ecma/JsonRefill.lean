import Newsdeck.Ecma.JsonGrammar

/-!
# Texts that differ inside their strings

A text whose strings have been filled with something else reads as a value of the same shape.

* `SameShape` — two values are the same but for what their strings hold;
* `Refilled` — two texts are the same but for what stands in their strings, keys apart;
* `parse_refilled` — the reader goes through both in step.
-/

namespace Ecma

namespace Json

/-! ### Shapes -/

mutual

/-- The same value, but for what the strings hold. -/
def SameShape : Json → Json → Prop
  | .null, .null => True
  | .bool a, .bool b => a = b
  | .num a, .num b => a = b
  | .infinite, .infinite => True
  | .str _, .str _ => True
  | .arr items, .arr items' => SameItems items items'
  | .obj members, .obj members' => SameMembers members members'
  | _, _ => False

def SameItems : List Json → List Json → Prop
  | [], [] => True
  | v :: items, v' :: items' => SameShape v v' ∧ SameItems items items'
  | _, _ => False

def SameMembers : List (Text × Json) → List (Text × Json) → Prop
  | [], [] => True
  | (k, v) :: members, (k', v') :: members' => k' = k ∧ SameShape v v' ∧
    SameMembers members members'
  | _, _ => False

end

mutual

theorem SameShape.refl : ∀ v : Json, SameShape v v
  | .null | .infinite | .str _ => trivial
  | .bool _ | .num _ => rfl
  | .arr items => by
    rw [SameShape]
    exact SameItems.refl items
  | .obj members => by
    rw [SameShape]
    exact SameMembers.refl members

theorem SameItems.refl : ∀ items : List Json, SameItems items items
  | [] => trivial
  | v :: items => ⟨SameShape.refl v, SameItems.refl items⟩

theorem SameMembers.refl : ∀ members : List (Text × Json), SameMembers members members
  | [] => trivial
  | (_, v) :: members => ⟨rfl, SameShape.refl v, SameMembers.refl members⟩

end

mutual

theorem SameShape.trans : ∀ u v w : Json, SameShape u v → SameShape v w → SameShape u w
  | .null, .null, .null, _, _ | .infinite, .infinite, .infinite, _, _
  | .str _, .str _, .str _, _, _ => trivial
  | .bool _, .bool _, .bool _, h, h' | .num _, .num _, .num _, h, h' => by
    rw [SameShape] at h h' ⊢
    rw [h, h']
  | .arr items, .arr items', .arr items'', h, h' => by
    rw [SameShape] at h h' ⊢
    exact SameItems.trans items items' items'' h h'
  | .obj members, .obj members', .obj members'', h, h' => by
    rw [SameShape] at h h' ⊢
    exact SameMembers.trans members members' members'' h h'

theorem SameItems.trans : ∀ items items' items'' : List Json, SameItems items items' →
    SameItems items' items'' → SameItems items items''
  | [], [], [], _, _ => trivial
  | v :: items, v' :: items', v'' :: items'', ⟨h, hrest⟩, ⟨h', hrest'⟩ =>
    ⟨SameShape.trans v v' v'' h h', SameItems.trans items items' items'' hrest hrest'⟩

theorem SameMembers.trans : ∀ members members' members'' : List (Text × Json),
    SameMembers members members' → SameMembers members' members'' → SameMembers members members''
  | [], [], [], _, _ => trivial
  | (k, v) :: members, (k', v') :: members', (k'', v'') :: members'', ⟨hk, h, hrest⟩,
      ⟨hk', h', hrest'⟩ =>
    ⟨hk'.trans hk, SameShape.trans v v' v'' h h',
      SameMembers.trans members members' members'' hrest hrest'⟩

end

mutual

/-- Values of the same shape have as many strings. -/
theorem SameShape.stringCount_eq : ∀ v w : Json, SameShape v w → stringCount w = stringCount v
  | .null, .null, _ | .infinite, .infinite, _ | .str _, .str _, _ | .bool _, .bool _, _
  | .num _, .num _, _ => rfl
  | .arr items, .arr items', h => by
    rw [SameShape] at h
    exact SameItems.stringCount_eq items items' h
  | .obj members, .obj members', h => by
    rw [SameShape] at h
    exact SameMembers.stringCount_eq members members' h

theorem SameItems.stringCount_eq : ∀ items items' : List Json, SameItems items items' →
    itemsStringCount items' = itemsStringCount items
  | [], [], _ => rfl
  | v :: items, v' :: items', ⟨h, hrest⟩ => by
    rw [itemsStringCount, itemsStringCount, SameShape.stringCount_eq v v' h,
      SameItems.stringCount_eq items items' hrest]

theorem SameMembers.stringCount_eq : ∀ members members' : List (Text × Json),
    SameMembers members members' → membersStringCount members' = membersStringCount members
  | [], [], _ => rfl
  | (_, v) :: members, (_, v') :: members', ⟨_, h, hrest⟩ => by
    rw [membersStringCount, membersStringCount, SameShape.stringCount_eq v v' h,
      SameMembers.stringCount_eq members members' hrest]

end

/-! ### Refilled texts -/

/-- The same text, but for what stands in its strings; a string in front of a colon reads the
same. -/
inductive Refilled : Text → Text → Prop
  | nil : Refilled [] []
  | unit {c : ℕ} {t t' : Text} (h : c ≠ 34) (rest : Refilled t t') : Refilled (c :: t) (c :: t')
  | string {s s' k k' t t' : Text} (h : ∀ z, parseChars (s ++ 34 :: z) = some (k, z))
      (h' : ∀ z, parseChars (s' ++ 34 :: z) = some (k', z))
      (hkey : (skipSpace t).head? = some 58 → k' = k) (rest : Refilled t t') :
      Refilled (34 :: (s ++ 34 :: t)) (34 :: (s' ++ 34 :: t'))

section Refilled

variable {c : ℕ} {t t' u r : Text} {v : Json}

theorem Refilled.head?_eq (h : Refilled t t') : t'.head? = t.head? := by
  cases h <;> rfl

/-- A unit outside the strings. -/
theorem Refilled.of_unit (h : Refilled (c :: t) t') (hc : c ≠ 34) : ∃ u', t' = c :: u' ∧
    Refilled t u' := by
  cases h with
  | unit _ rest => exact ⟨_, rfl, rest⟩
  | string => exact absurd rfl hc

/-- Units outside the strings. -/
theorem Refilled.of_append (h : Refilled (u ++ t) t') (hu : 34 ∉ u) : ∃ u', t' = u ++ u' ∧
    Refilled t u' := by
  induction u generalizing t' with
  | nil => exact ⟨t', rfl, h⟩
  | cons c u ih =>
    obtain ⟨w, rfl, hrest⟩ := h.of_unit fun hc => hu (hc ▸ List.mem_cons_self)
    obtain ⟨u', rfl, hlater⟩ := ih hrest fun hmem => hu (List.mem_cons_of_mem c hmem)
    exact ⟨u', rfl, hlater⟩

/-- A string. -/
theorem Refilled.of_string {s : Text} (h : Refilled (34 :: t) t')
    (hs : parseChars t = some (s, r)) :
    ∃ u' s' r', t' = 34 :: u' ∧ parseChars u' = some (s', r') ∧ Refilled r r' ∧
      ((skipSpace r).head? = some 58 → s' = s) ∧ r'.length < u'.length := by
  generalize htext : 34 :: t = text at h
  cases h with
  | nil => cases htext
  | unit hc _ => exact absurd (List.cons.inj htext).1.symm hc
  | @string s₁ s₂ k k' x x' hchars hchars' hkey rest =>
    obtain ⟨-, rfl⟩ := List.cons.inj htext
    obtain ⟨rfl, rfl⟩ := Prod.mk.inj (Option.some.inj (hs.symm.trans (hchars x)))
    refine ⟨s₂ ++ 34 :: x', k', x', rfl, hchars' x', rest, hkey, ?_⟩
    rw [List.length_append, List.length_cons]
    omega

/-- A run of a class that no quotation mark is of. -/
theorem Refilled.run {p : ℕ → Bool} (hp : p 34 = false) (h : Refilled t t') :
    t'.takeWhile p = t.takeWhile p ∧ Refilled (t.dropWhile p) (t'.dropWhile p) := by
  induction h with
  | nil => exact ⟨rfl, .nil⟩
  | @unit c t t' hc rest ih =>
    by_cases hpc : p c = true
    · rw [List.takeWhile_cons_of_pos hpc, List.takeWhile_cons_of_pos hpc,
        List.dropWhile_cons_of_pos hpc, List.dropWhile_cons_of_pos hpc, ih.1]
      exact ⟨rfl, ih.2⟩
    · rw [List.takeWhile_cons_of_neg hpc, List.takeWhile_cons_of_neg hpc,
        List.dropWhile_cons_of_neg hpc, List.dropWhile_cons_of_neg hpc]
      exact ⟨rfl, .unit hc rest⟩
  | string hchars hchars' hkey rest _ =>
    have hneg : ¬ p 34 = true := by simp [hp]
    rw [List.takeWhile_cons_of_neg hneg, List.takeWhile_cons_of_neg hneg,
      List.dropWhile_cons_of_neg hneg, List.dropWhile_cons_of_neg hneg]
    exact ⟨rfl, .string hchars hchars' hkey rest⟩

theorem Refilled.skip (h : Refilled t t') : Refilled (skipSpace t) (skipSpace t') := (h.run rfl).2

theorem length_skipSpace_le (t : Text) : (skipSpace t).length ≤ t.length :=
  (List.dropWhile_suffix _).length_le

/-- Blanks and a unit. -/
theorem Refilled.of_skipSpace (h : Refilled t t') (ht : skipSpace t = c :: u) (hc : c ≠ 34) :
    ∃ u', skipSpace t' = c :: u' ∧ Refilled u u' ∧ u'.length < t'.length := by
  have hskip := h.skip
  rw [ht] at hskip
  obtain ⟨u', hu', hrest⟩ := hskip.of_unit hc
  refine ⟨u', hu', hrest, ?_⟩
  have hlength := length_skipSpace_le t'
  rw [hu', List.length_cons] at hlength
  exact hlength

/-! ### Numerals -/

theorem Refilled.parseInt {ds : Text} (h : Refilled t t') (hint : Json.parseInt t = some (ds, r)) :
    ∃ r', Json.parseInt t' = some (ds, r') ∧ Refilled r r' ∧ r'.length < t'.length := by
  obtain ⟨htake, hdrop⟩ := h.run (p := isDigit) rfl
  unfold Json.parseInt at hint ⊢
  dsimp only at hint ⊢
  rw [htake]
  split at hint
  · cases hint
  · rename_i hdigits
    obtain ⟨rfl, rfl⟩ := Prod.mk.inj (Option.some.inj hint)
    rw [if_neg hdigits]
    refine ⟨_, rfl, hdrop, ?_⟩
    have hne : t.takeWhile isDigit ≠ [] := fun hnil => hdigits (by simp [hnil])
    have hpos := List.length_pos_iff.mpr hne
    have hlength := congrArg List.length (List.takeWhile_append_dropWhile (p := isDigit) (l := t'))
    rw [List.length_append, htake] at hlength
    omega

theorem Refilled.parseFraction {ds : Text} (h : Refilled t t')
    (hfrac : Json.parseFraction t = some (ds, r)) :
    ∃ r', Json.parseFraction t' = some (ds, r') ∧ Refilled r r' ∧ r'.length ≤ t'.length := by
  unfold Json.parseFraction at hfrac
  split at hfrac
  · obtain ⟨u', rfl, hrest⟩ := h.of_unit (by decide)
    obtain ⟨htake, hdrop⟩ := hrest.run (p := isDigit) rfl
    dsimp only at hfrac
    split at hfrac
    · cases hfrac
    · rename_i hdigits
      obtain ⟨rfl, rfl⟩ := Prod.mk.inj (Option.some.inj hfrac)
      refine ⟨u'.dropWhile isDigit, ?_, hdrop, ?_⟩
      · simp only [Json.parseFraction, htake, if_neg hdigits]
      · exact (List.dropWhile_suffix _).length_le.trans (Nat.le_succ _)
  · rename_i hdot
    obtain ⟨rfl, rfl⟩ := Prod.mk.inj (Option.some.inj hfrac)
    refine ⟨t', ?_, h, le_rfl⟩
    unfold Json.parseFraction
    split
    · rename_i u'
      have hhead := h.head?_eq
      obtain ⟨u, rfl⟩ := List.head?_eq_some_iff.mp hhead.symm
      exact absurd rfl (hdot u)
    · rfl

/-- A sign that may stand in front of an exponent. -/
theorem Refilled.sign (h : Refilled t t') :
    Refilled (if t.head? = some 45 || t.head? = some 43 then t.tail else t)
      (if t'.head? = some 45 || t'.head? = some 43 then t'.tail else t') := by
  rw [h.head?_eq]
  split
  · rename_i hsign
    cases h with
    | nil => exact .nil
    | unit _ rest => exact rest
    | string => simp at hsign
  · exact h

theorem Refilled.parseExponent {e : ℤ} (h : Refilled t t')
    (hexp : Json.parseExponent t = some (e, r)) :
    ∃ r', Json.parseExponent t' = some (e, r') ∧ Refilled r r' ∧ r'.length ≤ t'.length := by
  cases h with
  | nil =>
    obtain ⟨rfl, rfl⟩ := Prod.mk.inj (Option.some.inj hexp)
    exact ⟨[], rfl, .nil, le_rfl⟩
  | string hchars hchars' hkey rest =>
    obtain ⟨rfl, rfl⟩ := Prod.mk.inj (Option.some.inj hexp)
    exact ⟨_, rfl, .string hchars hchars' hkey rest, le_rfl⟩
  | @unit c t t' hc rest =>
    unfold Json.parseExponent at hexp ⊢
    dsimp only at hexp ⊢
    split at hexp
    · rename_i hmark
      rw [if_pos hmark]
      obtain ⟨htake, hdrop⟩ := rest.sign.run (p := isDigit) rfl
      have hlength : (if t'.head? = some 45 || t'.head? = some 43 then t'.tail else t').length ≤
          t'.length := by
        split <;> simp
      rw [rest.head?_eq] at htake hdrop hlength ⊢
      generalize (if t.head? = some 45 || t.head? = some 43 then t.tail else t) =
        u at hexp htake hdrop
      generalize (if t.head? = some 45 || t.head? = some 43 then t'.tail else t') =
        u' at htake hdrop hlength ⊢
      rw [htake]
      split at hexp
      · cases hexp
      · rename_i hdigits
        obtain ⟨rfl, rfl⟩ := Prod.mk.inj (Option.some.inj hexp)
        rw [if_neg hdigits]
        refine ⟨_, rfl, hdrop, ?_⟩
        exact ((List.dropWhile_suffix _).length_le.trans hlength).trans (Nat.le_succ _)
    · rename_i hmark
      obtain ⟨rfl, rfl⟩ := Prod.mk.inj (Option.some.inj hexp)
      rw [if_neg hmark]
      exact ⟨_, rfl, .unit hc rest, le_rfl⟩

theorem Refilled.parseNumber (h : Refilled t t') (hnum : Json.parseNumber t = some (v, r)) :
    ∃ r', Json.parseNumber t' = some (v, r') ∧ Refilled r r' ∧ r'.length < t'.length := by
  unfold Json.parseNumber at hnum
  simp only [Option.bind_eq_bind, Option.bind_eq_some_iff] at hnum
  obtain ⟨⟨int, t₁⟩, hint, ⟨frac, t₂⟩, hfrac, ⟨exp, t₃⟩, hexp, heq⟩ := hnum
  obtain ⟨rfl, rfl⟩ := Prod.mk.inj (Option.some.inj heq)
  have hstart : Refilled (if t.head? = some 45 then t.tail else t)
      (if t'.head? = some 45 then t'.tail else t') := by
    rw [h.head?_eq]
    split
    · rename_i hsign
      cases h with
      | nil => exact .nil
      | unit _ rest => exact rest
      | string => simp at hsign
    · exact h
  obtain ⟨u₁, hint', h₁, hlength₁⟩ := hstart.parseInt hint
  obtain ⟨u₂, hfrac', h₂, hlength₂⟩ := h₁.parseFraction hfrac
  obtain ⟨u₃, hexp', h₃, hlength₃⟩ := h₂.parseExponent hexp
  refine ⟨u₃, ?_, h₃, ?_⟩
  · have hhead := h.head?_eq
    rw [hhead] at hint'
    unfold Json.parseNumber
    simp only [Option.bind_eq_bind, hhead, hint', hfrac', hexp', Option.bind_some]
  · have hlength : (if t'.head? = some 45 then t'.tail else t').length ≤ t'.length := by
      split <;> simp
    omega

/-! ### The reader in step -/

/-- Reading from a refilled text gives a value of the same shape and leaves a refilled rest, with as
much fuel as is read. -/
def InStep {β : Type} (read : ℕ → Text → Option (β × Text)) (same : β → β → Prop) (n : ℕ) : Prop :=
  ∀ t t' v r, Refilled t t' → read n t = some (v, r) → ∃ v' r', Refilled r r' ∧ same v v' ∧
    r'.length < t'.length ∧ ∀ m, t'.length ≤ m + r'.length → read m t' = some (v', r')

theorem inStep_value {n : ℕ} (hitems : InStep parseItems SameItems n)
    (hmembers : InStep parseMembers SameMembers n) : InStep parseValue SameShape (n + 1) := by
  intro t t' v r h hvalue
  have hread := parseValue_iff.mp hvalue
  have hskip := h.skip
  have hblank := length_skipSpace_le t'
  -- it is enough to find what one call returns behind the blanks
  suffices hcall : ∃ v' r', Refilled r r' ∧ SameShape v v' ∧ r'.length < (skipSpace t').length ∧
      ∀ m, (skipSpace t').length ≤ m + 1 + r'.length → ValueRead m (skipSpace t') v' r' by
    obtain ⟨v', r', hr, hsame, hshort, hcall⟩ := hcall
    refine ⟨v', r', hr, hsame, by omega, fun m hm => ?_⟩
    obtain ⟨m, rfl⟩ : ∃ k, m = k + 1 := Nat.exists_eq_succ_of_ne_zero (by omega)
    exact parseValue_iff.mpr (hcall m (by omega))
  generalize skipSpace t = text at hskip hread
  generalize skipSpace t' = text' at hskip
  cases hread with
  | emptyObject hclose =>
    obtain ⟨u', rfl, hu⟩ := hskip.of_unit (by decide)
    obtain ⟨r', hclose', hr, hlength⟩ := hu.of_skipSpace hclose (by decide)
    exact ⟨.obj [], r', hr, trivial, Nat.lt_succ_of_lt hlength, fun m _ => .emptyObject hclose'⟩
  | object hne hm =>
    obtain ⟨u', rfl, hu⟩ := hskip.of_unit (by decide)
    obtain ⟨members', r', hr, hsame, hlength, hread⟩ := hmembers _ _ _ _ hu.skip hm
    have hshort := length_skipSpace_le u'
    refine ⟨.obj members', r', hr, by rwa [SameShape], by
      rw [List.length_cons]; omega, fun m hm => ?_⟩
    rw [List.length_cons] at hm
    exact .object (by rwa [hu.skip.head?_eq]) (hread m (by omega))
  | emptyArray hclose =>
    obtain ⟨u', rfl, hu⟩ := hskip.of_unit (by decide)
    obtain ⟨r', hclose', hr, hlength⟩ := hu.of_skipSpace hclose (by decide)
    exact ⟨.arr [], r', hr, trivial, Nat.lt_succ_of_lt hlength, fun m _ => .emptyArray hclose'⟩
  | array hne hi =>
    obtain ⟨u', rfl, hu⟩ := hskip.of_unit (by decide)
    obtain ⟨items', r', hr, hsame, hlength, hread⟩ := hitems _ _ _ _ hu.skip hi
    have hshort := length_skipSpace_le u'
    refine ⟨.arr items', r', hr, by rwa [SameShape], by
      rw [List.length_cons]; omega, fun m hm => ?_⟩
    rw [List.length_cons] at hm
    exact .array (by rwa [hu.skip.head?_eq]) (hread m (by omega))
  | string hs =>
    obtain ⟨u', s', r', rfl, hs', hr, -, hlength⟩ := hskip.of_string hs
    exact ⟨.str s', r', hr, trivial, Nat.lt_succ_of_lt hlength, fun m _ => .string hs'⟩
  | @literal word _ _ hword =>
    have hplain : ∀ p ∈ literals, 34 ∉ p.1 ∧ p.1 ≠ [] := by
      simp only [literals, List.forall_mem_cons]
      exact ⟨by decide, by decide, by decide, by simp⟩
    obtain ⟨r', rfl, hr⟩ := hskip.of_append (hplain _ hword).1
    refine ⟨v, r', hr, SameShape.refl v, ?_, fun m _ => .literal hword⟩
    have hpos := List.length_pos_iff.mpr (hplain _ hword).2
    rw [List.length_append]
    exact Nat.lt_add_of_pos_left hpos
  | number hnum =>
    obtain ⟨r', hnum', hr, hlength⟩ := hskip.parseNumber hnum
    exact ⟨v, r', hr, SameShape.refl v, hlength, fun m _ => .number hnum'⟩

theorem inStep_items {n : ℕ} (hvalue : InStep parseValue SameShape n)
    (hitems : InStep parseItems SameItems n) : InStep parseItems SameItems (n + 1) := by
  intro t t' items r h hall
  obtain ⟨v, u, hv, hend⟩ := parseItems_iff.mp hall
  obtain ⟨v', u', hu, hsame, hlength, hread⟩ := hvalue _ _ _ _ h hv
  rcases hend with ⟨hbracket, rfl⟩ | ⟨w, rest, hcomma, hrest, rfl⟩
  · obtain ⟨r', hbracket', hr, hshort⟩ := hu.of_skipSpace hbracket (by decide)
    refine ⟨[v'], r', hr, ⟨hsame, trivial⟩, by omega, fun m hm => ?_⟩
    obtain ⟨m, rfl⟩ : ∃ k, m = k + 1 := Nat.exists_eq_succ_of_ne_zero (by omega)
    exact parseItems_iff.mpr ⟨v', u', hread m (by omega), .inl ⟨hbracket', rfl⟩⟩
  · obtain ⟨w', hcomma', hw, hshort⟩ := hu.of_skipSpace hcomma (by decide)
    obtain ⟨rest', r', hr, hsames, hlater, hreads⟩ := hitems _ _ _ _ hw hrest
    refine ⟨v' :: rest', r', hr, ⟨hsame, hsames⟩, by omega, fun m hm => ?_⟩
    obtain ⟨m, rfl⟩ : ∃ k, m = k + 1 := Nat.exists_eq_succ_of_ne_zero (by omega)
    exact parseItems_iff.mpr ⟨v', u', hread m (by omega),
      .inr ⟨w', rest', hcomma', hreads m (by omega), rfl⟩⟩

theorem inStep_members {n : ℕ} (hvalue : InStep parseValue SameShape n)
    (hmembers : InStep parseMembers SameMembers n) : InStep parseMembers SameMembers (n + 1) := by
  intro t t' members r h hall
  obtain ⟨u, k, w, x, v, y, hquote, hkey, hcolon, hv, hend⟩ := parseMembers_iff.mp hall
  have hskip := h.skip
  rw [hquote] at hskip
  obtain ⟨u', k', w', hquote', hkey', hw, hsamekey, hlength⟩ := hskip.of_string hkey
  have hblank := length_skipSpace_le t'
  rw [hquote', List.length_cons] at hblank
  obtain rfl : k' = k := hsamekey (by rw [hcolon]; rfl)
  obtain ⟨x', hcolon', hx, hshort⟩ := hw.of_skipSpace hcolon (by decide)
  obtain ⟨v', y', hy, hsame, hvlength, hread⟩ := hvalue _ _ _ _ hx hv
  rcases hend with ⟨hbrace, rfl⟩ | ⟨z, rest, hcomma, hrest, rfl⟩
  · obtain ⟨r', hbrace', hr, hrlength⟩ := hy.of_skipSpace hbrace (by decide)
    refine ⟨[(k', v')], r', hr, ⟨rfl, hsame, trivial⟩, by omega, fun m hm => ?_⟩
    obtain ⟨m, rfl⟩ : ∃ k, m = k + 1 := Nat.exists_eq_succ_of_ne_zero (by omega)
    exact parseMembers_iff.mpr ⟨u', k', w', x', v', y', hquote', hkey', hcolon', hread m (by omega),
      .inl ⟨hbrace', rfl⟩⟩
  · obtain ⟨z', hcomma', hz, hzlength⟩ := hy.of_skipSpace hcomma (by decide)
    obtain ⟨rest', r', hr, hsames, hlater, hreads⟩ := hmembers _ _ _ _ hz hrest
    refine ⟨(k', v') :: rest', r', hr, ⟨rfl, hsame, hsames⟩, by omega, fun m hm => ?_⟩
    obtain ⟨m, rfl⟩ : ∃ k, m = k + 1 := Nat.exists_eq_succ_of_ne_zero (by omega)
    exact parseMembers_iff.mpr ⟨u', k', w', x', v', y', hquote', hkey', hcolon', hread m (by omega),
      .inr ⟨z', rest', hcomma', hreads m (by omega), rfl⟩⟩

theorem inStep_parse (n : ℕ) : InStep parseValue SameShape n ∧ InStep parseItems SameItems n ∧
    InStep parseMembers SameMembers n := by
  induction n with
  | zero =>
    refine ⟨?_, ?_, ?_⟩ <;>
    · intro _ _ _ _ _ h
      cases h
  | succ n ih =>
    obtain ⟨hvalue, hitems, hmembers⟩ := ih
    exact ⟨inStep_value hitems hmembers, inStep_items hvalue hitems, inStep_members hvalue hmembers⟩

/-- **A refilled text reads as a value of the same shape.** -/
theorem parse_refilled (h : Refilled t t') (hparse : parse t = some v) :
    ∃ w, parse t' = some w ∧ SameShape v w := by
  unfold parse at hparse
  split at hparse
  · rename_i u r hvalue
    split at hparse
    · rename_i hblank
      obtain rfl := Option.some.inj hparse
      obtain ⟨w, r', hr, hsame, -, hread⟩ := (inStep_parse _).1 _ _ _ _ h hvalue
      have hend : skipSpace r' = [] := by
        have hskip := hr.skip
        rw [hblank] at hskip
        generalize skipSpace r' = left at hskip
        cases hskip
        rfl
      refine ⟨w, ?_, hsame⟩
      unfold parse
      rw [hread (t'.length + 1) (by omega)]
      simp [hend]
    · cases hparse
  · cases hparse

end Refilled

end Json

end Ecma

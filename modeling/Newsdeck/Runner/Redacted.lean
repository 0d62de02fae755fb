import Newsdeck.Library.Splitting
import Newsdeck.Runner.Redaction

/-!
# Redacted texts

What redaction has gone over holds nothing that it would still replace.

* `Redacted` — a text in which the patterns match nothing but what the masks left behind;
* `Redacted.label_eq` — wherever a pattern matches such a text, the match is replaced by itself;
* `redacted_redact` — redaction leaves such a text.
-/

namespace Newsdeck.Runner

open Ecma Regex Masking

/-- The pattern matches nowhere in the text. -/
def Bare (r : Regex ℕ) (x : Text) : Prop := ∀ pre suf, x = pre ++ suf → Passes r pre.reverse suf

/-- Every value that is assigned to a secret is the mask. -/
def SecretsMasked (x : Text) : Prop :=
  ∀ pre name v post, x = pre ++ (name ++ 61 :: (v ++ post)) → Fresh pre.reverse → SecretName name →
    v ≠ [] → (∀ c ∈ v, isSpace c = false) → (∀ c ∈ post.head?, isSpace c = true) →
    v = lit "[redacted]"

/-- Every password in a connection string is the mask. -/
def PasswordsMasked (x : Text) : Prop :=
  ∀ pre m scheme user v post, x = pre ++ (m ++ (v ++ 64 :: post)) → Fresh pre.reverse →
    Login m scheme user → v ≠ [] → (∀ c ∈ v, isPasswordUnit c = true) → v = lit "[redacted]"

/-- A text that redaction leaves as it is. -/
structure Redacted (x : Text) : Prop where
  tokens : ∀ credential ∈ credentials, Bare credential.entry.pattern x
  keys : Bare privateKey.pattern x
  secrets : SecretsMasked x
  passwords : PasswordsMasked x

/-! ### What is redacted stays so -/

section Label

variable {x pre m post : Text} {caps : Captures ℕ}

/-- A match in a redacted text is replaced by itself, where it is as long as it can be. -/
theorem Redacted.label_eq_of_takes (h : Redacted (pre ++ (m ++ post))) {entry : RedactionPattern}
    (hentry : entry ∈ redactionPatterns)
    (htakes : entry.pattern.Takes (⟨pre.reverse, m ++ post⟩, [])
      (⟨m.reverse ++ pre.reverse, post⟩, caps))
    (hends : entry = assignment → ∀ c ∈ post.head?, isSpace c = true) : entry.label caps = m := by
  rcases entry_cases hentry with ⟨credential, hmem, rfl⟩ | rfl | rfl | rfl
  · exact absurd htakes (h.tokens credential hmem pre (m ++ post) rfl _)
  · exact absurd htakes (h.keys pre (m ++ post) rfl _)
  · obtain ⟨hfresh, name, v, post', hsplit, hname, hne, hv, heq⟩ := takes_assignment.mp htakes
    obtain ⟨rfl, rfl, rfl⟩ := eq_of_cursor_eq (by simpa using hsplit) heq
    have hmask := h.secrets pre name v post (by simp) hfresh hname hne hv (hends rfl)
    show groupText 1 [(1, name)] ++ lit "=[redacted]" = _
    rw [hmask, show groupText 1 [(1, name)] = name from rfl]
    rfl
  · obtain ⟨hfresh, login, scheme, user, v, post', hsplit, hlogin, hne, hv, heq⟩ :=
      takes_connection.mp htakes
    obtain ⟨rfl, rfl, rfl⟩ := eq_of_cursor_eq (by simpa using hsplit) heq
    have hmask := h.passwords pre login scheme user v post (by simp) hfresh hlogin hne hv
    have hscheme : groupText 1 [(2, user), (1, scheme ++ [58])] = scheme ++ [58] := rfl
    have huser : groupText 2 [(2, user), (1, scheme ++ [58])] = user := rfl
    show groupText 1 _ ++ lit "//" ++ groupText 2 _ ++ lit ":[redacted]@" = _
    rw [hscheme, huser, hmask, hlogin.eq]
    simp [lit]

/-- **Wherever a pattern matches a redacted text, the match is replaced by itself.** -/
theorem Redacted.label_eq (h : Redacted (pre ++ (m ++ post))) {entry : RedactionPattern}
    (hentry : entry ∈ redactionPatterns)
    (hrun : entry.pattern.run done ⟨pre.reverse, m ++ post⟩ [] =
      some (⟨m.reverse ++ pre.reverse, post⟩, caps)) : entry.label caps = m := by
  refine h.label_eq_of_takes hentry (takes_of_run_done hrun) ?_
  rintro rfl
  exact assignment_stops hrun

/-- `redact`, pass by pass. -/
theorem redact_eq_foldl (text : Text) :
    redact text = redactionPatterns.foldl (fun output entry => pass entry output) text := rfl

/-- Nothing is replaced where every match is replaced by itself. -/
theorem redact_eq_of_label
    (h : ∀ entry ∈ redactionPatterns, ∀ pre m post caps, x = pre ++ (m ++ post) →
    entry.pattern.run done ⟨pre.reverse, m ++ post⟩ [] =
      some (⟨m.reverse ++ pre.reverse, post⟩, caps) →
    entry.label caps = m) : redact x = x := by
  have hpass : ∀ entry ∈ redactionPatterns, pass entry x = x := fun entry hentry =>
    replace_eq_self_of_split (consumes_of_mem hentry) (h entry hentry)
  rw [redact_eq_foldl]
  refine List.foldlRecOn _ _ (motive := fun output => output = x) rfl
    fun output houtput entry hentry => ?_
  rw [houtput, hpass entry hentry]

theorem Redacted.redact_eq (h : Redacted x) : redact x = x := by
  refine redact_eq_of_label fun entry hentry pre m post caps hx hrun => ?_
  rw [hx] at h
  exact h.label_eq hentry hrun

end Label

/-! ### Credentials and keys -/

section Bare

variable {kept : Text → Text → Prop} {cut : Text → Text → Text → Text → Prop} {b r l m x y : Text}

theorem apart_of_mem_masks (hl : l ∈ masks) (hopen : 91 ∉ m) (hclose : 93 ∉ m)
    (hwithin : ¬ m <:+: l) :
    Detached m l := by
  obtain ⟨hfirst, hlast⟩ := masks_ends l hl
  exact ⟨⟨91, hfirst, hopen⟩, ⟨93, hlast, hclose⟩, hwithin⟩

/-- No mask has a part in a credential. -/
theorem Credential.apart {credential : Credential} (hform : credential.form m) (hl : l ∈ masks) :
    Detached m l := by
  have hnot : ∀ c, isCredentialUnit c = false → c ∉ m := by
    intro c hc hmem
    rw [credential.units m hform c hmem] at hc
    cases hc
  refine apart_of_mem_masks hl (hnot 91 (by decide)) (hnot 93 (by decide)) fun hwithin => ?_
  obtain ⟨word, hword, hbegins⟩ := credential.word m hform
  exact credentialWords_apart word hword l hl (hbegins.isInfix.trans hwithin)

/-- A credential begins with a letter. -/
theorem Credential.letter {credential : Credential} (hform : credential.form m) (t : Text) :
    ∃ c ∈ (m ++ t).head?, isLetter c = true := by
  obtain ⟨word, hword, rest, rfl⟩ := credential.word m hform
  have hwords : ∀ word ∈ credentialWords, ∃ c ∈ word.head?, isLetter c = true := by decide
  obtain ⟨c, hc, hletter⟩ := hwords word hword
  rw [List.append_assoc]
  exact ⟨c, List.mem_head?_append_of_mem_head? hc, hletter⟩

/-- In front of a letter nothing that was cut out ends in a letter, a digit or a low line. -/
theorem Cut.fresh (h : Cut b r l x) (hx : ∃ c ∈ x.head?, isLetter c = true) :
    Fresh (r.reverse ++ b) := by
  obtain ⟨d, hd, hletter⟩ := hx
  intro c hc
  have hlast : c ∈ r.getLast? := by
    rwa [List.head?_append_of_ne_nil _ (by simpa using h.ne_nil), List.head?_reverse] at hc
  by_contra hword
  have hnot := h.back c hlast (by simpa using hword) d hd
  rw [hletter] at hnot
  cases hnot

/-- What follows a word and is no word itself followed it before. -/
theorem fresh_of_masked {b' : Text} (hcut : ∀ b r l x, cut b r l x → Cut b r l x)
    (h : Masked kept cut b b' x y) (hb : ∃ c ∈ b.head?, isWord c = true) (hy : Fresh y) :
      Fresh x := by
  cases h with
  | nil => exact hy
  | keep => exact hy
  | @mask _ _ r l x y hcuts _ =>
    obtain ⟨c, hc, hword⟩ := hb
    intro d hd
    rw [List.head?_append_of_ne_nil _ (hcut _ _ _ _ hcuts).ne_nil] at hd
    exact (hcut _ _ _ _ hcuts).front c hc hword d hd

/-- **A pattern that matches nothing that was kept matches nothing afterwards.** -/
theorem bare_of_masked (credential : Credential) (h : Masked kept cut [] [] x y)
    (hcut : ∀ b r l x, cut b r l x → Cut b r l x)
    (hkept : ∀ pre suf, x = pre ++ suf → kept pre.reverse suf →
      Passes credential.entry.pattern pre.reverse suf) : Bare credential.entry.pattern y := by
  rintro pre' suf' hy s' htakes
  obtain ⟨hfresh, m, post', rfl, hform, hbounded, -⟩ := (credential.takes_iff _ _ _).mp htakes
  obtain ⟨pre, post, rfl, hlink, hhere, hrest⟩ := h.pull
    (fun b b' x => (∃ c ∈ x.head?, isLetter c = true) → Fresh b' → Fresh b)
    (fun _ _ _ _ _ hfresh => hfresh)
      (fun _ _ _ _ _ hcuts hletter _ => (hcut _ _ _ _ hcuts).fresh hletter)
    (fun _ _ _ _ hcuts => Credential.apart hform (hcut _ _ _ _ hcuts).mem_masks)
    (credential.ne_nil hform) (fun _ hfresh => hfresh) hy
  simp only [List.append_nil] at hlink hhere hrest
  have hfront := hlink (Credential.letter hform post) hfresh
  refine hkept pre (m ++ post) rfl hhere _
    ((credential.takes_iff _ _ _).mpr ⟨hfront, m, post, rfl, hform, fun hends => ?_, rfl⟩)
  obtain ⟨c, hc, hword⟩ := credential.last_word hends m hform
  exact fresh_of_masked hcut hrest ⟨c, mem_head?_reverse_append hc _, hword⟩ (hbounded hends)

/-- A line of a key has no part in a mask. -/
theorem KeyLine.apart {start : Text} (hstart : start ∈ [lit "-----BEGIN ", lit "-----END "])
    (h : KeyLine start m) (hl : l ∈ masks) : Detached m l := by
  obtain ⟨kind, rfl, hkind⟩ := h
  have hnot : ∀ c ∈ lit "[]", c ∉ start ++ (kind ++ lit "PRIVATE KEY-----") := by
    intro c hc hmem
    have hstarts : ∀ start ∈ [lit "-----BEGIN ", lit "-----END "], ∀ c ∈ lit "[]",
      c ∉ start := by decide
    have hend : ∀ c ∈ lit "[]", c ∉ lit "PRIVATE KEY-----" := by decide
    have hclass : ∀ c ∈ lit "[]", isKeyKind c = false := by decide
    simp only [List.mem_append] at hmem
    rcases hmem with hmem | hmem | hmem
    · exact hstarts start hstart c hc hmem
    · have hkinds := hkind c hmem
      rw [hclass c hc] at hkinds
      cases hkinds
    · exact hend c hc hmem
  have hmasks : ∀ l ∈ masks, ¬ lit "-----" <:+: l := by decide
  refine apart_of_mem_masks hl (hnot 91 (by decide)) (hnot 93 (by decide))
    fun hwithin => hmasks l hl ?_
  have hbegins : ∀ start ∈ [lit "-----BEGIN ", lit "-----END "], lit "-----" <+: start := by decide
  exact ((hbegins start hstart).trans (List.prefix_append _ _)).isInfix.trans hwithin

theorem KeyLine.ne_nil {start : Text} (hstart : start ≠ []) (h : KeyLine start m) : m ≠ [] := by
  obtain ⟨kind, rfl, -⟩ := h
  simp [hstart]

/-- A key that is found afterwards was there before. -/
theorem bare_privateKey_of_masked (h : Masked kept cut [] [] x y)
    (hcut : ∀ b r l x, cut b r l x → Cut b r l x)
    (hkept : ∀ pre suf, x = pre ++ suf → kept pre.reverse suf →
      Passes privateKey.pattern pre.reverse suf) : Bare privateKey.pattern y := by
  rintro pre' suf' hy s' htakes
  obtain ⟨_, post', rfl, ⟨first, middle', last, rfl, hfirst, hlast⟩, -⟩ :=
    takes_privateKey.mp htakes
  rw [List.append_assoc] at hy
  obtain ⟨pre, post, rfl, -, hhere, hrest⟩ := h.pull (fun _ _ _ => True) (fun _ _ _ _ => trivial)
    (fun _ _ _ _ _ _ => trivial)
      (fun _ _ _ _ hcuts => hfirst.apart (by decide) (hcut _ _ _ _ hcuts).mem_masks)
    (hfirst.ne_nil (by decide)) trivial hy
  obtain ⟨middle, post, rfl, -, -, -⟩ := hrest.pull (fun _ _ _ => True) (fun _ _ _ _ => trivial)
    (fun _ _ _ _ _ _ => trivial)
      (fun _ _ _ _ hcuts => hlast.apart (by decide) (hcut _ _ _ _ hcuts).mem_masks)
    (hlast.ne_nil (by decide)) trivial (List.append_assoc middle' last post')
  rw [List.append_nil] at hhere
  refine hkept pre _ rfl hhere _ (takes_privateKey.mpr
    ⟨first ++ (middle ++ last), post, by simp, ⟨first, middle, last, rfl, hfirst, hlast⟩, rfl⟩)

end Bare

/-! ### Secrets -/

section Secrets

variable {kept : Text → Text → Prop} {b b' l m x y : Text}

/-- A name and its sign of equality have no part in a mask. -/
theorem SecretName.apart {name : Text} (h : SecretName name) (hl : l ∈ masks) :
    Detached (name ++ [61]) l := by
  have hnot : ∀ c, Ecma.isWord c = false → c ≠ 61 → c ∉ name ++ [61] := by
    intro c hc hne hmem
    rcases List.mem_append.mp hmem with hmem | hmem
    · rw [h.isWord c hmem] at hc
      cases hc
    · exact hne (List.mem_singleton.mp hmem)
  have hmasks : ∀ l ∈ masks, 61 ∉ l := by decide
  exact apart_of_mem_masks hl (hnot 91 (by decide) (by decide)) (hnot 93 (by decide) (by decide))
    fun hwithin => hmasks l hl (hwithin.subset (by simp))

theorem SecretName.letter {name : Text} (h : SecretName name) (t : Text) :
    ∃ c ∈ (name ++ [61] ++ t).head?, Ecma.isWord c = true := by
  rw [List.append_assoc]
  exact h.head _

/-- A blank behind a mask was there before. -/
theorem blank_of_masked (h : Masked kept AssignmentCut b b' x y)
    (hx : ∀ c ∈ x.head?, isSpace c = true) :
    ∀ c ∈ y.head?, isSpace c = true := by
  cases h with
  | nil => exact hx
  | keep => exact hx
  | @mask _ _ r l x y hcut _ =>
    obtain ⟨c, r, rfl⟩ := List.exists_cons_of_ne_nil hcut.ne_nil
    have hspace := hcut.units c List.mem_cons_self
    rw [hx c rfl] at hspace
    cases hspace

theorem nonspace_mask : ∀ c ∈ lit "[redacted]", isSpace c = false := by decide

/-- What the pass over the secrets leaves. -/
theorem secretsMasked_of_masked (h : Masked (fun b t => ¬ Owed b t) AssignmentCut [] [] x y) :
    SecretsMasked y := by
  intro pre' name v post' hy hfresh hname hne hv hends
  have hsplit : y = pre' ++ ((name ++ [61]) ++ (v ++ post')) := by simpa using hy
  obtain ⟨pre, post, rfl, hlink, -, hrest⟩ := h.pull
    (fun b b' x => (∃ c ∈ x.head?, isWord c = true) → Fresh b' → Fresh b)
    (fun _ _ _ _ _ hfresh => hfresh)
    (fun b b' r l x hcut hword _ => by
      obtain ⟨c, hc, hword⟩ := hword
      rw [isWord_of_isSpace (hcut.ends c hc)] at hword
      cases hword)
    (fun _ _ _ _ hcut => hname.apart hcut.cut.mem_masks) (by simp) (fun _ hfresh => hfresh) hsplit
  simp only [List.append_nil] at hlink hrest
  have hfront := hlink (hname.letter post) hfresh
  obtain ⟨c, v, rfl⟩ := List.exists_cons_of_ne_nil hne
  rw [List.cons_append] at hrest
  generalize hcopy : c :: (v ++ post') = copy at hrest
  cases hrest with
  | nil => cases hcopy
  | keep hkept _ =>
    obtain ⟨rfl, -⟩ := List.cons.inj hcopy
    exact absurd ⟨⟨name, pre.reverse, by simp, hfront, hname⟩, c, rfl,
      hv c List.mem_cons_self⟩ hkept
  | @mask _ _ r l x y hcut hlater =>
    rw [hcut.mask] at hcopy
    have hafter := blank_of_masked hlater hcut.ends
    exact (Splitting.span_unique (p := fun c => !isSpace c) hcopy (by simpa using hv)
      (by simpa using hends)
      (by simpa using nonspace_mask) (by simpa using hafter)).1

/-- A host behind a mask was there before, and no other mask stands in front of it. -/
theorem host_of_masked (h : Masked kept PasswordCut b b' x y) (hx : x.head? = some 64) :
    ∃ y₂, y = 64 :: y₂ := by
  cases h with
  | nil => cases hx
  | @keep _ _ x y c hkept _ =>
    obtain rfl : c = 64 := Option.some.inj hx
    exact ⟨y, rfl⟩
  | @mask _ _ r l x y hcut _ =>
    obtain ⟨c, r, rfl⟩ := List.exists_cons_of_ne_nil hcut.ne_nil
    obtain rfl : c = 64 := Option.some.inj hx
    cases hcut.units 64 List.mem_cons_self

/-- What a place is cut out of holds an `@`, unless all of it was kept. -/
theorem value_of_masked {v : Text} (h : Masked kept PasswordCut b b' x (v ++ y)) (hne : v ≠ [])
    (hv : ∀ c ∈ v, isSpace c = false) (hy : ∀ c ∈ y.head?, isSpace c = true) :
    x.takeWhile (fun c => !isSpace c) ≠ [] ∧
      (x.takeWhile (fun c => !isSpace c) = v ∨ 64 ∈ x.takeWhile (fun c => !isSpace c)) := by
  rcases h.first_mask with ⟨x', rfl, hrest⟩ | ⟨k, w, r, l, x', y₂, rfl, hw, rfl, hcut,
    hsplit, hrest⟩
  · have hblank : ∀ c ∈ x'.head?, isSpace c = true := by
      cases hrest with
      | nil => simp
      | keep => exact hy
      | @mask _ _ r l x y hcut _ =>
        rw [hcut.mask] at hy
        cases hy 91 rfl
    have htake : (v ++ x').takeWhile (fun c => !isSpace c) = v := by
      rw [List.takeWhile_append_of_pos (by simpa using hv)]
      cases x' with
      | nil => simp
      | cons c x' => simp [hblank c rfl]
    exact ⟨by rw [htake]; exact hne, .inl htake⟩
  · obtain ⟨x', rfl⟩ : ∃ x₂, x' = 64 :: x₂ := by
      obtain ⟨c, x₂, rfl⟩ := List.exists_cons_of_ne_nil (l := x') (by rintro rfl; cases hcut.host)
      exact ⟨x₂, by rw [Option.some.inj hcut.host]⟩
    have hk : ∀ c ∈ k ++ r, (!isSpace c) = true := by
      intro c hc
      rcases List.mem_append.mp hc with hc | hc
      · simp [hv c (List.mem_append_left w hc)]
      · have hunit := hcut.units c hc
        simp only [isPasswordUnit, Bool.and_eq_true] at hunit
        exact hunit.2
    rw [← List.append_assoc, List.takeWhile_append_of_pos hk,
      List.takeWhile_cons_of_pos (by decide)]
    exact ⟨by simp, .inr (by simp)⟩

/-- The pass over the connection strings uncovers no secret. -/
theorem SecretsMasked.of_masked (hx : SecretsMasked x) (h : Masked kept PasswordCut [] [] x y) :
    SecretsMasked y := by
  intro pre' name v post' hy hfresh hname hne hv hends
  have hsplit : y = pre' ++ ((name ++ [61]) ++ (v ++ post')) := by simpa using hy
  obtain ⟨pre, post, rfl, hlink, -, hrest⟩ := h.pull
    (fun b b' x => (∃ c ∈ x.head?, isWord c = true) → Fresh b' → Fresh b)
    (fun _ _ _ _ _ hfresh => hfresh)
    (fun b b' r l x hcut hword _ => by
      obtain ⟨c, hc, hword⟩ := hword
      obtain rfl : 64 = c := Option.some.inj (hcut.host.symm.trans hc)
      cases hword)
    (fun _ _ _ _ hcut => hname.apart hcut.cut.mem_masks) (by simp) (fun _ hfresh => hfresh) hsplit
  simp only [List.append_nil] at hlink hrest
  have hfront := hlink (hname.letter post) hfresh
  obtain ⟨hvalue, hsame⟩ := value_of_masked hrest hne hv hends
  have hmask := hx pre name (post.takeWhile fun c => !isSpace c)
    (post.dropWhile fun c => !isSpace c)
    (by simp) hfront hname hvalue (fun c hc => by simpa using List.mem_takeWhile_imp hc)
    (fun c hc => by
      have hnot := List.head?_dropWhile_not (fun c => !isSpace c) post
      rw [Option.mem_def.mp hc] at hnot
      simpa using hnot)
  rcases hsame with hsame | hat
  · rw [← hsame, hmask]
  · rw [hmask] at hat
    exact absurd hat (by decide)

end Secrets

/-! ### Passwords -/

section Passwords

variable {kept : Text → Text → Prop} {b b' x y v post' : Text}

theorem host_not_mem_mask : 64 ∉ lit "[redacted]" := by decide

/-- A mask is found in front of the next host. -/
theorem eq_mask {u y₂ : Text} (hu : 64 ∉ u) (h : u ++ 64 :: post' = lit "[redacted]" ++ 64 :: y₂) :
    u = lit "[redacted]" :=
  (Splitting.append_cons_inj_of_not_mem hu host_not_mem_mask h).1

/-- In front of a host that was kept, what a password is cut out of was one. -/
theorem password_of_masked (h : Masked kept PasswordCut b b' x (v ++ 64 :: post'))
    (hv : ∀ c ∈ v, isPasswordUnit c = true) :
    ∃ v₂ x₂, x = v₂ ++ 64 :: x₂ ∧ ∀ c ∈ v₂, isPasswordUnit c = true := by
  rcases h.first_mask with ⟨x', rfl, hrest⟩ | ⟨k, w, r, l, x', y₂, rfl, -, rfl, hcut, -, -⟩
  · generalize hcopy : 64 :: post' = copy at hrest
    cases hrest with
    | nil => cases hcopy
    | @keep _ _ x y c hkept _ =>
      obtain ⟨rfl, -⟩ := List.cons.inj hcopy
      exact ⟨v, x, rfl, hv⟩
    | @mask _ _ r l x y hcut _ =>
      rw [hcut.mask] at hcopy
      cases hcopy
  · obtain ⟨c, x₂, rfl⟩ := List.exists_cons_of_ne_nil (l := x') (by rintro rfl; cases hcut.host)
    obtain rfl : c = 64 := Option.some.inj hcut.host
    refine ⟨k ++ r, x₂, by simp, fun c hc => ?_⟩
    exact (List.mem_append.mp hc).elim (fun hc => hv c (List.mem_append_left w hc)) (hcut.units c)

/-- What the pass over the connection strings leaves. -/
theorem passwordsMasked_of_masked (h : Masked (fun b t => ¬ Due b t) PasswordCut [] [] x y) :
    PasswordsMasked y := by
  intro pre' login scheme user v post' hy hfresh hlogin hne hv
  have hat : 64 ∉ v := fun hmem => by cases hv 64 hmem
  rcases h.split_at (fun b b' x => (∃ c ∈ x.head?, isWord c = true) → Fresh b' → Fresh b)
      (fun _ _ _ _ _ hfresh => hfresh)
      (fun b b' r l x hcut hword _ => by
        obtain ⟨c, hc, hword⟩ := hword
        obtain rfl : 64 = c := Option.some.inj (hcut.host.symm.trans hc)
        cases hword)
      (fun _ hfresh => hfresh) hy with
    ⟨pre, x', rfl, hlink, hrest⟩ | ⟨_, _, r, l, x', w, v', y₂, hcut, hl, -, hsplit, hrest⟩
  · simp only [List.append_nil] at hlink hrest
    rcases hrest.first_mask with
      ⟨x', rfl, hvalue⟩ | ⟨k, w, r, l, x', y₂, hlog, hw, rfl, hcut, hsplit, hlater⟩
    · have hfront := hlink (hlogin.head x') hfresh
      obtain ⟨c, v, rfl⟩ := List.exists_cons_of_ne_nil hne
      rw [List.cons_append] at hvalue
      generalize hcopy : c :: (v ++ 64 :: post') = copy at hvalue
      cases hvalue with
      | nil => cases hcopy
      | keep hkept hlater =>
        obtain ⟨rfl, rfl⟩ := List.cons.inj hcopy
        obtain ⟨v₂, x₂, rfl, hv₂⟩ :=
          password_of_masked hlater fun d hd => hv d (List.mem_cons_of_mem _ hd)
        refine absurd ⟨⟨login, scheme, user, pre.reverse, rfl, hfront, hlogin⟩, c :: v₂, x₂, rfl,
          by simp, ?_⟩
          hkept
        exact List.forall_mem_cons.mpr ⟨hv c List.mem_cons_self, hv₂⟩
      | @mask _ _ r l x y hcut hlater =>
        obtain ⟨y₂, rfl⟩ := host_of_masked hlater hcut.host
        rw [hcut.mask] at hcopy
        exact eq_mask hat hcopy
    · -- a mask would have to begin within the login, and hold its colon
      obtain ⟨y₃, rfl⟩ := host_of_masked hlater hcut.host
      rw [hcut.mask, ← List.append_assoc] at hsplit
      have hnot : 64 ∉ w ++ v := by
        intro hmem
        rcases List.mem_append.mp hmem with hmem | hmem
        · exact hlogin.not_mem (hlog ▸ List.mem_append_right k hmem)
        · exact hat hmem
      have hcolon : 58 ∈ w ++ v := by
        have hlast := hlogin.getLast?
        rw [hlog, List.getLast?_append_of_ne_nil _ hw] at hlast
        exact List.mem_append_left v (List.mem_of_mem_getLast? hlast)
      rw [eq_mask hnot hsplit] at hcolon
      exact absurd hcolon (by decide)
  · obtain ⟨y₃, rfl⟩ := host_of_masked hrest hcut.host
    have hmask : ∀ c ∈ v', c ∈ lit "[redacted]" := by
      intro c hc
      rw [← hcut.mask, hl]
      exact List.mem_append_right w hc
    have hcolon : 58 ∈ v' := by
      rw [← List.append_assoc] at hsplit
      have hnot : 64 ∉ login ++ v := fun hmem => (List.mem_append.mp hmem).elim hlogin.not_mem hat
      rw [← (Splitting.append_cons_inj_of_not_mem hnot
        (fun hmem => host_not_mem_mask (hmask 64 hmem)) hsplit).1]
      exact List.mem_append_left v (List.mem_of_mem_getLast? hlogin.getLast?)
    exact absurd (hmask 58 hcolon) (by decide)

end Passwords

/-! ### The passes in turn -/

section Turns

variable {x : Text} {entry : RedactionPattern}

/-- What one pass brings about and every pass keeps holds of what is redacted. -/
theorem redact_keeps {P : Text → Prop} (hentry : entry ∈ redactionPatterns)
    (hself : ∀ x, P (pass entry x))
    (hkeep : ∀ other ∈ redactionPatterns, ∀ x, P x → P (pass other x)) (text : Text) :
      P (redact text) := by
  obtain ⟨front, back, hsplit⟩ := List.append_of_mem hentry
  rw [redact_eq_foldl, hsplit, List.foldl_append, List.foldl_cons]
  refine List.foldlRecOn _ _ (hself _) fun output houtput other hother =>
    hkeep other ?_ output houtput
  rw [hsplit]
  exact List.mem_append_right front (List.mem_cons_of_mem _ hother)

theorem bare_redact_token {credential : Credential} (h : credential ∈ credentials) (text : Text) :
    Bare credential.entry.pattern (redact text) := by
  have hentry : credential.entry ∈ redactionPatterns := by
    rw [redactionPatterns_eq]
    simp only [credentials, List.mem_cons, List.not_mem_nil, or_false] at h
    rcases h with rfl | rfl | rfl | rfl | rfl | rfl <;> simp
  refine redact_keeps hentry (fun x => ?_) (fun other hother x hx => ?_) text
  · have hreplaced := replaced_pass (credential_consumes credential) x
    exact bare_of_masked credential (masked_credential credential hreplaced [])
      (fun _ _ _ _ hcut => hcut.cut) fun _ _ _ hkept => hkept
  · exact bare_of_masked credential (masked_pass hother x) (fun _ _ _ _ hcut => hcut)
      fun pre suf hsplit _ => hx pre suf hsplit

theorem bare_redact_key (text : Text) : Bare privateKey.pattern (redact text) := by
  have hentry : privateKey ∈ redactionPatterns := by simp [redactionPatterns_eq]
  refine redact_keeps hentry (fun x => ?_) (fun other hother x hx => ?_) text
  · exact bare_privateKey_of_masked (masked_privateKey (replaced_pass privateKey_consumes x) [])
      (fun _ _ _ _ hcut => hcut.cut) fun _ _ _ hkept => hkept
  · exact bare_privateKey_of_masked (masked_pass hother x) (fun _ _ _ _ hcut => hcut)
      fun pre suf hsplit _ => hx pre suf hsplit

/-- The last two passes. -/
theorem redact_eq_last (text : Text) : redact text = pass connection (pass assignment
    ((redactionPatterns.take 7).foldl (fun output entry => pass entry output) text)) := by
  have hsplit : redactionPatterns = redactionPatterns.take 7 ++ [assignment, connection] := by
    rw [redactionPatterns_eq]
    rfl
  conv_lhs => rw [redact_eq_foldl, hsplit, List.foldl_append]
  rw [List.foldl_cons, List.foldl_cons, List.foldl_nil]

/-- **What redaction leaves holds nothing that it would still replace.** -/
theorem redacted_redact (text : Text) : Redacted (redact text) := by
  have hsecrets : ∀ x, SecretsMasked (pass assignment x) := fun x =>
    secretsMasked_of_masked
      (masked_assignment (replaced_pass assignment_consumes x) (refused_nil x) [])
  have hlast : ∀ x, Masked (fun b t => ¬ Due b t) PasswordCut [] [] x (pass connection x) :=
      fun x =>
    masked_connection (replaced_pass connection_consumes x) (unmatched_nil x) []
  refine ⟨fun credential h => bare_redact_token h text, bare_redact_key text, ?_, ?_⟩
  · rw [redact_eq_last]
    exact (hsecrets _).of_masked (hlast _)
  · rw [redact_eq_last]
    exact passwordsMasked_of_masked (hlast _)

/-- Redaction leaves exactly the redacted texts as they are. -/
theorem redact_eq_self_iff : redact x = x ↔ Redacted x := by
  constructor
  · intro h
    rw [← h]
    exact redacted_redact x
  · exact Redacted.redact_eq

end Turns

end Newsdeck.Runner

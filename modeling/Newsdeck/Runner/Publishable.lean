import Newsdeck.Ecma.Replace
import Newsdeck.Loop.Review
import Newsdeck.Runner.Redacted

/-!
# What the runner publishes

Text is redacted, and then made harmless for Markdown.  The second step takes the control characters
out, and with them what kept the parts of a credential apart.

* `Alike`, `redacted_of_alike` — exchanging quotes and dashes puts no credential together;
* `Rejoined` — a stretch that is a credential once its control characters are gone;
* `redact_publishable` — when what is published holds nothing that redaction would still replace.
-/

namespace Newsdeck.Runner

open Ecma Regex Loop

/-- `publishable`. -/
def publishable (text : Text) : Text := sanitiseForMarkdown (redact text)

/-! ### Quotes and dashes -/

/-- The same, or a quote or a dash and what may stand in its place. -/
def Alike (c d : ℕ) : Prop := c = d ∨ (c ∈ lit "`'-" ∧ d ∈ lit "'`–")

section Alike

variable {c d : ℕ} {b b' m x y : Text}

theorem Alike.trans {e : ℕ} (h : Alike c d) (h' : Alike d e) : Alike c e := by
  rcases h with rfl | ⟨hc, hd⟩
  · exact h'
  · rcases h' with rfl | ⟨-, he⟩
    · exact .inr ⟨hc, hd⟩
    · exact .inr ⟨hc, he⟩

/-- A class that tells no quotes and dashes apart. -/
theorem Alike.class_eq {p : ℕ → Bool} (h : Alike c d)
    (hp : ∀ e ∈ lit "`'-", ∀ f ∈ lit "'`–", p e = p f) :
    p c = p d := by
  rcases h with rfl | ⟨hc, hd⟩
  · rfl
  · exact hp c hc d hd

/-- A stretch without what may stand in the place of a quote or a dash is the same. -/
theorem eq_of_alike (h : List.Forall₂ Alike x y) (hy : ∀ c ∈ y, c ∉ lit "'`–") : x = y := by
  induction h with
  | nil => rfl
  | @cons c d x y hcd _ ih =>
    obtain rfl : c = d := hcd.resolve_right fun hmarks => hy d List.mem_cons_self hmarks.2
    rw [ih fun e he => hy e (List.mem_cons_of_mem _ he)]

theorem forall_of_alike {p : ℕ → Bool} {v : Bool} (h : List.Forall₂ Alike x y)
    (hp : ∀ e ∈ lit "`'-", ∀ f ∈ lit "'`–", p e = p f) (hy : ∀ c ∈ y, p c = v) :
      ∀ c ∈ x, p c = v := by
  induction h with
  | nil => simp
  | @cons c d x y hcd _ ih =>
    refine List.forall_mem_cons.mpr ⟨?_, ih fun e he => hy e (List.mem_cons_of_mem _ he)⟩
    rw [hcd.class_eq hp]
    exact hy d List.mem_cons_self

theorem head_of_alike {p : ℕ → Bool} {v : Bool} (h : List.Forall₂ Alike x y)
    (hp : ∀ e ∈ lit "`'-", ∀ f ∈ lit "'`–", p e = p f) (hy : ∀ c ∈ y.head?, p c = v) :
    ∀ c ∈ x.head?, p c = v := by
  cases h with
  | nil => simp
  | @cons c d x y hcd _ =>
    intro e he
    obtain rfl : c = e := Option.some.inj he
    rw [hcd.class_eq hp]
    exact hy d rfl

theorem fresh_of_alike (h : List.Forall₂ Alike x y) (hy : Fresh y) : Fresh x :=
  head_of_alike h (by decide) hy

/-- Two stretches are like two stretches. -/
theorem split_of_alike {u v : Text} (h : List.Forall₂ Alike x (u ++ v)) :
    ∃ u₂ v₂, x = u₂ ++ v₂ ∧ List.Forall₂ Alike u₂ u ∧ List.Forall₂ Alike v₂ v :=
  ⟨x.take u.length, x.drop u.length, (List.take_append_drop _ _).symm,
    List.forall₂_take_append _ _ _ h, List.forall₂_drop_append _ _ _ h⟩

theorem bare_of_alike {credential : Credential} (hx : Bare credential.entry.pattern x)
    (h : List.Forall₂ Alike x y) : Bare credential.entry.pattern y := by
  rintro pre' suf' rfl s' htakes
  obtain ⟨hfresh, m, post', rfl, hform, hbounded, -⟩ := (credential.takes_iff _ _ _).mp htakes
  obtain ⟨pre, suf, rfl, hpre, hsuf⟩ := split_of_alike h
  obtain ⟨m₂, post, rfl, hm, hpost⟩ := split_of_alike hsuf
  obtain rfl : m₂ = m := eq_of_alike hm fun c hc hmark => by
    have hmarks : ∀ c ∈ lit "'`–", isCredentialUnit c = false := by decide
    have hunit := credential.units m hform c hc
    rw [hmarks c hmark] at hunit
    cases hunit
  exact hx pre _ rfl _
    ((credential.takes_iff _ _ _).mpr ⟨fresh_of_alike (List.rel_reverse hpre) hfresh, m₂, post, rfl,
    hform, fun hends => fresh_of_alike hpost (hbounded hends), rfl⟩)

theorem KeyLine.not_mem {start : Text} (hstart : start ∈ [lit "-----BEGIN ", lit "-----END "])
    (h : KeyLine start m) : ∀ c ∈ m, c ∉ lit "'`–" := by
  obtain ⟨kind, rfl, hkind⟩ := h
  have hstarts : ∀ start ∈ [lit "-----BEGIN ", lit "-----END "], ∀ c ∈ start,
    c ∉ lit "'`–" := by decide
  have hmarks : ∀ c ∈ lit "'`–", isKeyKind c = false := by decide
  have hend : ∀ c ∈ lit "PRIVATE KEY-----", c ∉ lit "'`–" := by decide
  intro c hc hmark
  simp only [List.mem_append] at hc
  rcases hc with hc | hc | hc
  · exact hstarts start hstart c hc hmark
  · have hkinds := hkind c hc
    rw [hmarks c hmark] at hkinds
    cases hkinds
  · exact hend c hc hmark

theorem bare_privateKey_of_alike (hx : Bare privateKey.pattern x) (h : List.Forall₂ Alike x y) :
    Bare privateKey.pattern y := by
  rintro pre' suf' rfl s' htakes
  obtain ⟨_, post', rfl, ⟨first, middle', last, rfl, hfirst, hlast⟩, -⟩ :=
    takes_privateKey.mp htakes
  obtain ⟨pre, suf, rfl, -, hsuf⟩ := split_of_alike h
  obtain ⟨_, post, rfl, hblock, -⟩ := split_of_alike hsuf
  obtain ⟨first₂, _, rfl, hfirst₂, hrest⟩ := split_of_alike hblock
  obtain ⟨middle, last₂, rfl, -, hlast₂⟩ := split_of_alike hrest
  obtain rfl := eq_of_alike hfirst₂ (hfirst.not_mem (by decide))
  obtain rfl := eq_of_alike hlast₂ (hlast.not_mem (by decide))
  exact hx pre _ rfl _ (takes_privateKey.mpr
    ⟨_, post, rfl, ⟨first₂, middle, last₂, rfl, hfirst, hlast⟩, rfl⟩)

/-- What is like the mask is the mask, and the other way round. -/
theorem mask_of_alike (h : List.Forall₂ Alike (lit "[redacted]") y) : y = lit "[redacted]" := by
  have hsame : ∀ c ∈ lit "[redacted]", c ∉ lit "`'-" := by decide
  generalize lit "[redacted]" = mask at h hsame
  induction h with
  | nil => rfl
  | @cons c d x y hcd _ ih =>
    obtain rfl : c = d := hcd.resolve_right fun hmarks => hsame c List.mem_cons_self hmarks.1
    rw [ih fun e he => hsame e (List.mem_cons_of_mem _ he)]

theorem secretsMasked_of_alike (hx : SecretsMasked x) (h : List.Forall₂ Alike x y) :
    SecretsMasked y := by
  rintro pre' name v' post' rfl hfresh hname hne hv hends
  obtain ⟨pre, suf, rfl, hpre, hsuf⟩ := split_of_alike h
  obtain ⟨name₂, _, rfl, hname₂, hassigned⟩ := split_of_alike hsuf
  obtain ⟨c, rest, hsign, hvalue, rfl⟩ := List.forall₂_cons_right_iff.mp hassigned
  obtain ⟨v, post, rfl, hv₂, hpost⟩ := split_of_alike hvalue
  obtain rfl : c = 61 := hsign.resolve_right fun hmarks => absurd hmarks.2 (by decide)
  obtain rfl := eq_of_alike hname₂ fun c hc hmark => by
    have hmarks : ∀ c ∈ lit "'`–", isWord c = false := by decide
    have hword := hname.isWord c hc
    rw [hmarks c hmark] at hword
    cases hword
  have hmask := hx pre name₂ v post rfl (fresh_of_alike (List.rel_reverse hpre) hfresh) hname ?_
    (forall_of_alike hv₂ (by decide) hv) (head_of_alike hpost (by decide) hends)
  · rw [hmask] at hv₂
    exact mask_of_alike hv₂
  · rintro rfl
    cases hv₂
    exact hne rfl

theorem passwordsMasked_of_alike (hx : PasswordsMasked x) (h : List.Forall₂ Alike x y) :
    PasswordsMasked y := by
  rintro pre' login scheme user v' post' rfl hfresh hlogin hne hv
  obtain ⟨pre, suf, rfl, hpre, hsuf⟩ := split_of_alike h
  obtain ⟨login₂, _, rfl, hlog, hpassword⟩ := split_of_alike hsuf
  obtain ⟨v, _, rfl, hv₂, hhost⟩ := split_of_alike hpassword
  obtain ⟨c, post, hat, -, rfl⟩ := List.forall₂_cons_right_iff.mp hhost
  obtain rfl : c = 64 := hat.resolve_right fun hmarks => absurd hmarks.2 (by decide)
  obtain ⟨user₂, hlogin₂⟩ : ∃ user₂, Login login₂ scheme user₂ := by
    obtain ⟨rfl, hscheme, hunits, huser, hunits'⟩ := hlogin
    obtain ⟨scheme₂, _, rfl, hscheme₂, hrest⟩ := split_of_alike hlog
    obtain ⟨slashes, _, rfl, hslashes, hrest⟩ := split_of_alike hrest
    obtain ⟨user₂, colon, rfl, huser₂, hcolon⟩ := split_of_alike hrest
    obtain rfl := eq_of_alike hslashes (by decide)
    obtain rfl := eq_of_alike hcolon (by decide)
    obtain rfl := eq_of_alike hscheme₂ fun c hc hmark => by
      have hmarks : ∀ c ∈ lit "'`–", isWord c = false := by decide
      have hword := hunits c hc
      rw [hmarks c hmark] at hword
      cases hword
    refine ⟨user₂, rfl, hscheme, hunits, ?_, forall_of_alike huser₂ (by decide) hunits'⟩
    rintro rfl
    cases huser₂
    exact huser rfl
  have hmask := hx pre login₂ scheme user₂ v post rfl
    (fresh_of_alike (List.rel_reverse hpre) hfresh) hlogin₂ ?_
    (forall_of_alike hv₂ (by decide) hv)
  · rw [hmask] at hv₂
    exact mask_of_alike hv₂
  · rintro rfl
    cases hv₂
    exact hne rfl

/-- **Exchanging quotes and dashes puts no credential together.** -/
theorem redacted_of_alike (hx : Redacted x) (h : List.Forall₂ Alike x y) : Redacted y where
  tokens credential hmem := bare_of_alike (hx.tokens credential hmem) h
  keys := bare_privateKey_of_alike hx.keys h
  secrets := secretsMasked_of_alike hx.secrets h
  passwords := passwordsMasked_of_alike hx.passwords h

end Alike

/-! ### Control characters -/

/-- A stretch of the text, with a control character in it, that is a credential once these are
gone. -/
def Rejoined (text : Text) : Prop :=
  ∃ entry ∈ redactionPatterns, ∃ pre m post caps, text = pre ++ (m ++ post) ∧
    (∃ c ∈ m, isControl c = true) ∧
    entry.pattern.run done ⟨(sanitiseText pre).reverse, sanitiseText m ++ sanitiseText post⟩ [] =
      some (⟨(sanitiseText m).reverse ++ (sanitiseText pre).reverse, sanitiseText post⟩, caps) ∧
    entry.label caps ≠ sanitiseText m

section Control

variable {b m x y : Text} {caps : Captures ℕ}

/-- What a pattern takes depends on what stands around it by the words there alone. -/
theorem takes_of_fresh {b' x' : Text} {entry : RedactionPattern}
    (hentry : entry ∈ redactionPatterns) (hfront : Fresh b → Fresh b') (hback : Fresh x → Fresh x')
    (h : entry.pattern.Takes (⟨b, m ++ x⟩, []) (⟨m.reverse ++ b, x⟩, caps)) :
    entry.pattern.Takes (⟨b', m ++ x'⟩, []) (⟨m.reverse ++ b', x'⟩, caps) := by
  rcases entry_cases hentry with ⟨credential, -, rfl⟩ | rfl | rfl | rfl
  · obtain ⟨hfresh, m', x₂, hsplit, hform, hbounded, heq⟩ := (credential.takes_iff _ _ _).mp h
    obtain ⟨rfl, rfl, rfl⟩ := eq_of_cursor_eq hsplit heq
    exact (credential.takes_iff _ _ _).mpr
      ⟨hfront hfresh, m, x', rfl, hform, fun hends => hback (hbounded hends), rfl⟩
  · obtain ⟨m', x₂, hsplit, hblock, heq⟩ := takes_privateKey.mp h
    obtain ⟨rfl, rfl, rfl⟩ := eq_of_cursor_eq hsplit heq
    exact takes_privateKey.mpr ⟨m, x', rfl, hblock, rfl⟩
  · obtain ⟨hfresh, name, v, x₂, hsplit, hname, hne, hv, heq⟩ := takes_assignment.mp h
    obtain ⟨rfl, rfl, rfl⟩ := eq_of_cursor_eq (by simpa using hsplit) heq
    exact takes_assignment.mpr ⟨hfront hfresh, name, v, x', by simp, hname, hne, hv, rfl⟩
  · obtain ⟨hfresh, login, scheme, user, v, x₂, hsplit, hlogin, hne, hv, heq⟩ :=
      takes_connection.mp h
    obtain ⟨rfl, rfl, rfl⟩ := eq_of_cursor_eq (by simpa using hsplit) heq
    exact takes_connection.mpr ⟨hfront hfresh, login, scheme, user, v, x',
      by simp, hlogin, hne, hv, rfl⟩

theorem sanitiseText_append (u v : Text) : sanitiseText
    (u ++ v) = sanitiseText u ++ sanitiseText v :=
  List.filter_append u v

/-- In front of the place where a stretch without control characters begins stands the same, or a
control character. -/
theorem fresh_of_sanitiseText (h : Fresh (sanitiseText x).reverse) : Fresh x.reverse := by
  rcases List.eq_nil_or_concat' x with rfl | ⟨x, c, rfl⟩
  · exact h
  · intro d hd
    obtain rfl : c = d := by simpa using hd
    by_cases hc : isControl c = true
    · have hcontrol : ∀ c, isControl c = true → isWord c = false := by
        intro c hc
        simp only [isControl, isWord, isLetter, isUpper, isLower, isDigit, Bool.or_eq_true,
          Bool.and_eq_true, decide_eq_true_eq, Bool.or_eq_false_iff, Bool.and_eq_false_iff,
            decide_eq_false_iff_not] at hc ⊢
        omega
      exact hcontrol c hc
    · refine h c ?_
      rw [sanitiseText_append, show sanitiseText [c] = [c] by simp [sanitiseText, hc]]
      simp

/-- A stretch of what is left comes from a stretch of the text, with the control characters behind
it. -/
theorem split_of_sanitiseText {pre' m' post' : Text} (h : sanitiseText x = pre' ++ (m' ++ post')) :
    ∃ pre m post, x = pre ++ (m ++ post) ∧ sanitiseText pre = pre' ∧ sanitiseText m = m' ∧
      sanitiseText post = post' ∧ post.head? = post'.head? := by
  obtain ⟨pre, rest, rfl, hpre, hrest⟩ := List.filter_eq_append_iff.mp h
  obtain ⟨m, post, rfl, hm, hpost⟩ := List.filter_eq_append_iff.mp hrest
  have hnothing : sanitiseText (post.takeWhile isControl) = [] := by
    rw [sanitiseText, List.filter_eq_nil_iff]
    intro c hc
    simpa using List.mem_takeWhile_imp hc
  have hbehind : sanitiseText (post.dropWhile isControl) = sanitiseText post := by
    conv_rhs => rw [← List.takeWhile_append_dropWhile (p := isControl) (l := post),
      sanitiseText_append, hnothing]
    rfl
  refine ⟨pre, m ++ post.takeWhile isControl, post.dropWhile isControl, ?_, hpre, ?_, ?_, ?_⟩
  · rw [List.append_assoc, List.takeWhile_append_dropWhile]
  · rw [sanitiseText_append, hnothing, List.append_nil]
    exact hm
  · rw [hbehind]
    exact hpost
  · rw [← hpost, ← show sanitiseText (post.dropWhile isControl) = post.filter _ from hbehind]
    have hstop := List.head?_dropWhile_not isControl post
    cases hrest : post.dropWhile isControl with
    | nil => rfl
    | cons c rest =>
      rw [hrest] at hstop
      have hc : isControl c = false := by simpa using hstop
      simp [sanitiseText, hc]

/-- **Taking the control characters out of a redacted text leaves it redacted, unless it puts a
credential together.** -/
theorem redacted_sanitiseText_iff (h : Redacted x) : Redacted (sanitiseText x) ↔ ¬ Rejoined x := by
  constructor
  · rintro hx ⟨entry, hentry, pre, m, post, caps, rfl, -, hrun, hlabel⟩
    rw [sanitiseText_append, sanitiseText_append] at hx
    exact hlabel (hx.label_eq hentry hrun)
  · intro hnot
    rw [← redact_eq_self_iff]
    refine redact_eq_of_label fun entry hentry pre' m' post' caps hsplit hrun => ?_
    obtain ⟨pre, m, post, rfl, rfl, rfl, rfl, hhead⟩ := split_of_sanitiseText hsplit
    by_contra hlabel
    by_cases hcontrol : ∃ c ∈ m, isControl c = true
    · exact hnot ⟨entry, hentry, pre, m, post, caps, rfl, hcontrol, hrun, hlabel⟩
    · have hm : sanitiseText m = m := by
        rw [sanitiseText, List.filter_eq_self]
        intro c hc
        simpa using fun hc' => hcontrol ⟨c, hc, hc'⟩
      rw [hm] at hrun hlabel
      refine hlabel (h.label_eq_of_takes hentry ?_ ?_)
      · refine takes_of_fresh hentry fresh_of_sanitiseText (fun hfresh => ?_)
          (takes_of_run_done hrun)
        unfold Fresh
        rw [hhead]
        exact hfresh
      · rintro rfl
        rw [hhead]
        exact assignment_stops hrun

end Control

/-! ### What is published -/

section Published

variable {text : Text}

theorem Alike.refl (c : ℕ) : Alike c c := .inl rfl

theorem forall₂_alike_trans {x y z : Text} (h : List.Forall₂ Alike x y)
    (h' : List.Forall₂ Alike y z) :
    List.Forall₂ Alike x z := by
  induction h generalizing z with
  | nil => exact h'
  | cons hcd _ ih =>
    cases h' with
    | cons hde h' => exact .cons (hcd.trans hde) (ih h')

/-- Without its control characters a text is like what Markdown sanitising makes of it. -/
theorem alike_sanitiseForMarkdown (text : Text) :
    List.Forall₂ Alike (sanitiseText text) (sanitiseForMarkdown text) := by
  have htick : List.Forall₂ Alike (lit "`") (lit "'") := .cons (.inr (by decide)) .nil
  have hopen : List.Forall₂ Alike (lit "<!--") (lit "<!––") :=
    .cons (.refl _) (.cons (.refl _) (.cons (.inr (by decide)) (.cons (.inr (by decide)) .nil)))
  have hclose : List.Forall₂ Alike (lit "-->") (lit "––>") :=
    .cons (.inr (by decide)) (.cons (.inr (by decide)) (.cons (.refl _) .nil))
  exact forall₂_alike_trans (forall₂_alike_trans (forall₂_replaceAll Alike.refl (by decide) htick _)
    (forall₂_replaceAll Alike.refl (by decide) hopen _))
      (forall₂_replaceAll Alike.refl (by decide) hclose _)

/-- Where no comment begins or ends nothing but backticks is exchanged, and these are like what they
are exchanged for. -/
theorem sanitiseForMarkdown_alike (hopen : ¬ lit "<!--" <:+: sanitiseText text)
    (hclose : ¬ lit "-->" <:+: sanitiseText text) :
    List.Forall₂ Alike (sanitiseForMarkdown text) (sanitiseText text) := by
  have htick : List.Forall₂ (flip Alike) (lit "`") (lit "'") := .cons (.inr (by decide)) .nil
  have hkeeps : ∀ w, (w = lit "<!--" ∨ w = lit "-->") → ¬ w <:+: sanitiseText text →
      ¬ w <:+: replaceAll (lit "`") (lit "'") (sanitiseText text) := by
    rintro w (rfl | rfl) hnot hinfix <;>
    exact hnot (infix_of_infix_replaceAll (by decide) (by decide) (by decide) hinfix)
  rw [sanitiseForMarkdown, replaceAll_eq_self (hkeeps (lit "<!--") (.inl rfl) hopen),
    replaceAll_eq_self (hkeeps (lit "-->") (.inr rfl) hclose)]
  have hrefl : ∀ c, flip Alike c c := Alike.refl
  exact (forall₂_replaceAll hrefl (by decide) htick (sanitiseText text)).flip

/-- **When what is published holds nothing that redaction would still replace.**  It is enough that
no credential is put together where the control characters are taken out; and where the text neither
begins nor ends a comment, so that the dashes stay what they are, nothing less is. -/
theorem redact_publishable (text : Text) :
    (¬ Rejoined (redact text) → redact (publishable text) = publishable text) ∧
      (¬ lit "<!--" <:+: sanitiseText (redact text) → ¬ lit "-->" <:+: sanitiseText (redact text) →
        redact (publishable text) = publishable text → ¬ Rejoined (redact text)) := by
  have hrejoined := redacted_sanitiseText_iff (redacted_redact text)
  constructor
  · intro hnot
    exact (redacted_of_alike (hrejoined.mpr hnot) (alike_sanitiseForMarkdown _)).redact_eq
  · intro hopen hclose hpublished
    exact hrejoined.mp
      (redacted_of_alike (redact_eq_self_iff.mp hpublished)
        (sanitiseForMarkdown_alike hopen hclose))

/-- A notice with a bell in it, and a secret. -/
def notice : Text := 7 :: lit "done: TOKEN=hunter2 `now`"

theorem redact_publishable_notice :
    publishable notice = lit "done: TOKEN=[redacted] 'now'" ∧
      redact (publishable notice) = publishable notice ∧ ¬ Rejoined (redact notice) := by
  have hkept : redact (sanitiseText (redact notice)) =
    sanitiseText (redact notice) := by decide +kernel
  have hnot : ¬ Rejoined (redact notice) :=
    (redacted_sanitiseText_iff (redacted_redact notice)).mp (redact_eq_self_iff.mp hkept)
  have hsettled := (redact_publishable notice).1 hnot
  exact ⟨by decide +kernel, hsettled,
    (redact_publishable notice).2 (by decide +kernel) (by decide +kernel) hsettled⟩

/-- **A token that a control character keeps apart is published whole.** -/
theorem publishable_joins :
    ∃ text : Text, publishable text = lit "ghp_abcdefghij0123456789" ∧
      redact (publishable text) = lit "[redacted:github-token]" ∧
      redact (publishable text) ≠ publishable text :=
  ⟨lit "gh" ++ 1 :: lit "p_abcdefghij0123456789", by decide +kernel, by decide +kernel, by
    decide +kernel⟩

end Published

end Newsdeck.Runner

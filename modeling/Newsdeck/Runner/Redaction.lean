import Newsdeck.Ecma.Replacing
import Newsdeck.Library.Masking
import Newsdeck.Runner.Redact

/-!
# What redaction cuts out

Each pass keeps most of the text, cuts some stretches out and puts a mask in the place of each.

* `Credential` — a pattern that cuts out the whole of what it matches, with what this looks like:
  `githubToken`, `githubPat`, `anthropicKey`, `openaiKey`, `awsKey`, `bearer`;
* `takes_privateKey`, `takes_assignment`, `takes_connection` — what the other three patterns match;
* `Cut` — what is common to everything that is cut out;
* `masked_credential`, `masked_privateKey`, `masked_assignment`, `masked_connection` — every pass
  masks the text.
-/

namespace Newsdeck.Runner

open Ecma Regex Masking

/-- What stands in the place of what is cut out. -/
def masks : List Text :=
  [lit "[redacted:github-token]", lit "[redacted:anthropic-key]", lit "[redacted:openai-key]",
    lit "[redacted:aws-key]", lit "[redacted:private-key]", lit "[redacted:bearer]",
    lit "[redacted]"]

theorem masks_ends : ∀ l ∈ masks, l.head? = some 91 ∧ l.getLast? = some 93 := by decide

/-- A unit that occurs in what a `Credential` matches. -/
def isCredentialUnit (c : ℕ) : Bool := isWord c || isSpace c || c ∈ lit "._~+/=-"

/-- How a credential begins. -/
def credentialWords : List Text :=
  [lit "ghp_", lit "gho_", lit "ghu_", lit "ghs_", lit "ghr_", lit "github_pat_", lit "sk-",
    lit "AKIA", lit "Bearer"]

theorem credentialWords_apart : ∀ word ∈ credentialWords, ∀ l ∈ masks, ¬ word <:+: l := by decide

/-- Nothing in front goes on as a word. -/
def Fresh (b : Text) : Prop := ∀ c ∈ b.head?, isWord c = false

/-- A pattern that cuts out the whole of what it matches. -/
structure Credential where
  entry : RedactionPattern
  mask : Text
  /-- What is matched. -/
  form : Text → Prop
  /-- A word boundary is asked for behind it. -/
  bounded : Bool
  label_eq : ∀ caps, entry.label caps = mask
  mem_masks : mask ∈ masks
  takes_iff : ∀ b t s', entry.pattern.Takes (⟨b, t⟩, []) s' ↔ Fresh b ∧ ∃ m x, t = m ++ x ∧ form m ∧
    (bounded = true → Fresh x) ∧ s' = (⟨m.reverse ++ b, x⟩, [])
  word : ∀ m, form m → ∃ word ∈ credentialWords, word <+: m
  units : ∀ m, form m → ∀ c ∈ m, isCredentialUnit c = true
  /-- Where it ends in a letter, a digit or a low line, no letter follows. -/
  stops : ∀ b m x, form m → entry.pattern.run done ⟨b, m ++ x⟩ [] = some (⟨m.reverse ++ b, x⟩, []) →
    ∀ c ∈ m.getLast?, isWord c = true → ∀ d ∈ x.head?, isLetter d = false
  last_word : bounded = true → ∀ m, form m → ∃ c ∈ m.getLast?, isWord c = true

/-! ### Credentials of a word and a run of units -/

/-- One of the words, and at least so many units of a class. -/
def Prefixed (words : List Text) (p : ℕ → Bool) (n : ℕ) (m : Text) : Prop :=
  ∃ word ∈ words, ∃ w, m = word ++ w ∧ n ≤ w.length ∧ ∀ c ∈ w, p c = true

/-- In front of a word unit a word boundary is the end of what is no word. -/
theorem atBoundary_iff_fresh {b t : Text} (ht : ∃ c ∈ t.head?, isWord c = true) :
    atBoundary isWord ⟨b, t⟩ = true ↔ Fresh b := by
  obtain ⟨c, hc, hword⟩ := ht
  unfold atBoundary Fresh
  rw [Option.mem_def.mp hc]
  cases b with
  | nil => simp [hword]
  | cons d b => simp [hword]

/-- Behind a word unit a word boundary is the beginning of what is no word. -/
theorem atBoundary_iff_fresh_after {b t : Text} (hb : ∃ c ∈ b.head?, isWord c = true) :
    atBoundary isWord ⟨b, t⟩ = true ↔ Fresh t := by
  obtain ⟨c, hc, hword⟩ := hb
  unfold atBoundary Fresh
  rw [Option.mem_def.mp hc]
  cases t with
  | nil => simp [hword]
  | cons d t => simp [hword]

theorem isWord_of_isLetter {c : ℕ} (h : isLetter c = true) : isWord c = true := by
  unfold isWord
  rw [h]
  rfl

theorem isCredentialUnit_of_isWord {c : ℕ} (h : isWord c = true) : isCredentialUnit c = true := by
  unfold isCredentialUnit
  rw [h]
  rfl

theorem isWord_of_isAlphanumeric {c : ℕ} (h : isAlphanumeric c = true) : isWord c = true := by
  unfold isAlphanumeric at h
  unfold isWord
  rw [h]
  rfl

/-- A pattern of a boundary, a literal and a run. -/
theorem takes_prefixed (word : Text) {b t : Text} {p : ℕ → Bool} {n : ℕ}
    {s' : Cursor ℕ × Captures ℕ} (hword : ∃ c ∈ word.head?, isWord c = true) :
    (cat [wordBoundary, units word, atLeast n (.cls p)]).Takes (⟨b, t⟩, []) s' ↔
      Fresh b ∧ ∃ m x, t = m ++ x ∧ Prefixed [word] p n m ∧ s' = (⟨m.reverse ++ b, x⟩, []) := by
  constructor
  · rintro ⟨_, ⟨hat, rfl⟩, _, hliteral, hrun⟩
    obtain ⟨v, rfl, rfl⟩ := takes_units.mp hliteral
    obtain ⟨w, x, rfl, hlength, hw, rfl⟩ := takes_atLeast.mp hrun
    have hhead : ∃ c ∈ (word ++ (w ++ x)).head?, isWord c = true := by
      obtain ⟨c, hc, hcword⟩ := hword
      exact ⟨c, List.mem_head?_append_of_mem_head? hc, hcword⟩
    refine ⟨(atBoundary_iff_fresh hhead).mp hat, word ++ w, x, by simp, ?_, by simp⟩
    exact ⟨word, List.mem_singleton_self _, w, rfl, hlength, hw⟩
  · rintro ⟨hfresh, m, x, rfl, ⟨word', hmem, w, rfl, hlength, hw⟩, rfl⟩
    rw [List.mem_singleton.mp hmem]
    have hhead : ∃ c ∈ (word ++ w ++ x).head?, isWord c = true := by
      obtain ⟨c, hc, hcword⟩ := hword
      exact ⟨c, by rw [List.append_assoc]; exact List.mem_head?_append_of_mem_head? hc, hcword⟩
    refine ⟨_, ⟨(atBoundary_iff_fresh hhead).mpr hfresh, rfl⟩, _,
      takes_units.mpr ⟨w ++ x, by rw [List.append_assoc], rfl⟩, ?_⟩
    exact takes_atLeast.mpr ⟨w, x, rfl, hlength, hw, by simp⟩

theorem Prefixed.units {words : List Text} {p q : ℕ → Bool} {n : ℕ} {m : Text}
    (h : Prefixed words p n m)
    (hwords : ∀ word ∈ words, ∀ c ∈ word, q c = true) (hp : ∀ c, p c = true → q c = true) :
    ∀ c ∈ m, q c = true := by
  obtain ⟨word, hword, w, rfl, -, hw⟩ := h
  exact fun c hc => (List.mem_append.mp hc).elim (hwords word hword c) fun hc => hp c (hw c hc)

theorem Prefixed.word {words starts : List Text} {p : ℕ → Bool} {n : ℕ} {m : Text}
    (h : Prefixed words p n m) (hwords : ∀ word ∈ words, ∃ start ∈ starts, start <+: word) :
    ∃ start ∈ starts, start <+: m := by
  obtain ⟨word, hword, w, rfl, -, -⟩ := h
  obtain ⟨start, hstart, hbegins⟩ := hwords word hword
  exact ⟨start, hstart, hbegins.trans (List.prefix_append _ _)⟩

/-- A run at the end of a match is not followed by a unit of its class. -/
theorem stops_of_run {r : Regex ℕ} {p : ℕ → Bool} {n : ℕ} {b m x : Text}
    (h : (cat [wordBoundary, r, atLeast n (.cls p)]).run done ⟨b, m ++ x⟩ [] =
      some (⟨m.reverse ++ b, x⟩, [])) : ∀ d ∈ x.head?, p d = false := by
  obtain ⟨_, -, h⟩ := run_seq_eq_some (s := (⟨b, m ++ x⟩, [])) h
  obtain ⟨s, -, h⟩ := run_seq_eq_some h
  exact head_of_run_atLeast h

theorem isLetter_eq_false {p : ℕ → Bool} {x : Text} (hp : ∀ c, isLetter c = true → p c = true)
    (h : ∀ d ∈ x.head?, p d = false) : ∀ d ∈ x.head?, isLetter d = false := by
  intro d hd
  by_contra hletter
  have hclass := hp d (by simpa using hletter)
  rw [h d hd] at hclass
  cases hclass

def tokenWords : List Text := [lit "ghp_", lit "gho_", lit "ghu_", lit "ghs_", lit "ghr_"]

theorem takes_githubToken {b t : Text} {s' : Cursor ℕ × Captures ℕ} :
    redactionPatterns[0].pattern.Takes (⟨b, t⟩, []) s' ↔ Fresh b ∧ ∃ m x, t = m ++ x ∧
      Prefixed tokenWords isAlphanumeric 20 m ∧ s' = (⟨m.reverse ++ b, x⟩, []) := by
  constructor
  · rintro ⟨_, ⟨hat, rfl⟩, _, hliteral, _, ⟨k, _, hafter, hk, rfl⟩, _, hline, hrun⟩
    obtain ⟨v, rfl, rfl⟩ := takes_units.mp hliteral
    obtain rfl : v = k :: _ := hafter
    obtain ⟨v, rfl, rfl⟩ := takes_units.mp hline
    obtain ⟨w, x, rfl, hlength, hw, rfl⟩ := takes_atLeast.mp hrun
    refine ⟨(atBoundary_iff_fresh ⟨103, rfl, rfl⟩).mp hat, lit "gh" ++ k :: lit "_" ++ w, x,
      by simp, ?_, by simp⟩
    have hkind : ∀ k ∈ lit "pousr", lit "gh" ++ k :: lit "_" ∈ tokenWords := by decide
    exact ⟨_, hkind k (of_decide_eq_true hk), w, rfl, hlength, hw⟩
  · rintro ⟨hfresh, m, x, rfl, ⟨word, hword, w, rfl, hlength, hw⟩, rfl⟩
    have hkind : ∀ word ∈ tokenWords, ∃ k ∈ lit "pousr",
      word = lit "gh" ++ k :: lit "_" := by decide
    obtain ⟨k, hk, rfl⟩ := hkind word hword
    refine ⟨_, ⟨(atBoundary_iff_fresh ⟨103, rfl, rfl⟩).mpr hfresh, rfl⟩, _,
      takes_units.mpr ⟨k :: (lit "_" ++ (w ++ x)), by simp, rfl⟩, _,
      ⟨k, _, rfl, decide_eq_true hk, rfl⟩, _, takes_units.mpr ⟨w ++ x, rfl, rfl⟩, ?_⟩
    exact takes_atLeast.mpr ⟨w, x, rfl, hlength, hw, by simp⟩

def githubToken : Credential where
  entry := redactionPatterns[0]
  mask := lit "[redacted:github-token]"
  form := Prefixed tokenWords isAlphanumeric 20
  bounded := false
  label_eq _ := rfl
  mem_masks := by decide
  takes_iff b t s' := takes_githubToken.trans (by simp)
  word m h := h.word (by decide)
  units m h := h.units (by decide) fun _ hc => isCredentialUnit_of_isWord
    (isWord_of_isAlphanumeric hc)
  stops b m x _ h := fun _ _ _ => by
    refine isLetter_eq_false (p := isAlphanumeric) (by simp +contextual [isAlphanumeric]) ?_
    obtain ⟨_, -, h⟩ := run_seq_eq_some (s := (⟨b, m ++ x⟩, [])) h
    obtain ⟨s, -, h⟩ := run_seq_eq_some h
    obtain ⟨s, -, h⟩ := run_seq_eq_some h
    obtain ⟨s, -, h⟩ := run_seq_eq_some h
    exact head_of_run_atLeast h
  last_word h := by cases h

def githubPat : Credential where
  entry := redactionPatterns[1]
  mask := lit "[redacted:github-token]"
  form := Prefixed [lit "github_pat_"] isWord 20
  bounded := false
  label_eq _ := rfl
  mem_masks := by decide
  takes_iff b t s' := (takes_prefixed (lit "github_pat_") ⟨103, rfl, rfl⟩).trans (by simp)
  word m h := h.word (by decide)
  units m h := h.units (by decide) fun _ => isCredentialUnit_of_isWord
  stops b m x _ h := fun _ _ _ => isLetter_eq_false (fun _ => isWord_of_isLetter) (stops_of_run h)
  last_word h := by cases h

def anthropicKey : Credential where
  entry := redactionPatterns[2]
  mask := lit "[redacted:anthropic-key]"
  form := Prefixed [lit "sk-ant-"] (fun c => isWord c || c = 45) 10
  bounded := false
  label_eq _ := rfl
  mem_masks := by decide
  takes_iff b t s' := (takes_prefixed (lit "sk-ant-") ⟨115, rfl, rfl⟩).trans (by simp)
  word m h := h.word (by decide)
  units m h := h.units (by decide) fun c hc => by
    rcases Bool.or_eq_true_iff.mp hc with hc | hc
    · exact isCredentialUnit_of_isWord hc
    · rw [of_decide_eq_true hc]
      rfl
  stops b m x _ h := fun _ _ _ =>
    isLetter_eq_false (by simp +contextual [isWord]) (stops_of_run h)
  last_word h := by cases h

def openaiKey : Credential where
  entry := redactionPatterns[3]
  mask := lit "[redacted:openai-key]"
  form := Prefixed [lit "sk-"] isAlphanumeric 32
  bounded := false
  label_eq _ := rfl
  mem_masks := by decide
  takes_iff b t s' := (takes_prefixed (lit "sk-") ⟨115, rfl, rfl⟩).trans (by simp)
  word m h := h.word (by decide)
  units m h := h.units (by decide) fun _ hc => isCredentialUnit_of_isWord
    (isWord_of_isAlphanumeric hc)
  stops b m x _ h := fun _ _ _ =>
    isLetter_eq_false (by simp +contextual [isAlphanumeric]) (stops_of_run h)
  last_word h := by cases h

/-! ### An access key, and a bearer token -/

/-- The unit that was read last stands in front. -/
theorem mem_head?_reverse_append {m : Text} {c : ℕ} (h : c ∈ m.getLast?) (b : Text) :
    c ∈ (m.reverse ++ b).head? := by
  rw [List.head?_append, List.head?_reverse, Option.mem_def.mp h]
  rfl

def AccessKey (m : Text) : Prop :=
  ∃ w, m = lit "AKIA" ++ w ∧ w.length = 16 ∧ ∀ c ∈ w, (isDigit c || isUpper c) = true

theorem AccessKey.last {m : Text} (h : AccessKey m) : ∃ c ∈ m.getLast?, isWord c = true := by
  obtain ⟨w, rfl, hlength, hw⟩ := h
  have hne : w ≠ [] := fun hnil => by simp [hnil] at hlength
  refine ⟨w.getLast hne, ?_, ?_⟩
  · rw [List.getLast?_append_of_ne_nil _ hne, List.getLast?_eq_some_getLast hne]
    rfl
  · have hlast := hw _ (List.getLast_mem hne)
    simp only [isWord, isLetter, Bool.or_eq_true] at hlast ⊢
    tauto

theorem takes_awsKey {b t : Text} {s' : Cursor ℕ × Captures ℕ} :
    redactionPatterns[4].pattern.Takes (⟨b, t⟩, []) s' ↔ Fresh b ∧ ∃ m x, t = m ++ x ∧ AccessKey m ∧
      Fresh x ∧ s' = (⟨m.reverse ++ b, x⟩, []) := by
  constructor
  · rintro ⟨_, ⟨hat, rfl⟩, _, hliteral, _, hrun, hend, rfl⟩
    obtain ⟨v, rfl, rfl⟩ := takes_units.mp hliteral
    obtain ⟨w, x, rfl, hlength, hw, rfl⟩ := takes_times.mp hrun
    have hkey : AccessKey (lit "AKIA" ++ w) := ⟨w, rfl, hlength, hw⟩
    refine ⟨(atBoundary_iff_fresh ⟨65, rfl, rfl⟩).mp hat, lit "AKIA" ++ w, x,
      by simp, hkey, ?_, by simp⟩
    refine (atBoundary_iff_fresh_after ?_).mp hend
    obtain ⟨c, hc, hword⟩ := hkey.last
    refine ⟨c, ?_, hword⟩
    rw [← List.append_assoc, ← List.reverse_append]
    exact mem_head?_reverse_append hc b
  · rintro ⟨hfresh, m, x, rfl, hkey, hend, rfl⟩
    obtain ⟨c, hc, hword⟩ := hkey.last
    obtain ⟨w, rfl, hlength, hw⟩ := hkey
    refine ⟨_, ⟨(atBoundary_iff_fresh ⟨65, rfl, rfl⟩).mpr hfresh, rfl⟩, _,
      takes_units.mpr ⟨w ++ x, by rw [List.append_assoc], rfl⟩, _,
      takes_times.mpr ⟨w, x, rfl, hlength, hw, rfl⟩, ?_, by simp⟩
    refine (atBoundary_iff_fresh_after ⟨c, ?_, hword⟩).mpr hend
    rw [← List.append_assoc, ← List.reverse_append]
    exact mem_head?_reverse_append hc b

def awsKey : Credential where
  entry := redactionPatterns[4]
  mask := lit "[redacted:aws-key]"
  form := AccessKey
  bounded := true
  label_eq _ := rfl
  mem_masks := by decide
  takes_iff b t s' := takes_awsKey.trans (by simp)
  word m h := by
    obtain ⟨w, rfl, -, -⟩ := h
    exact ⟨lit "AKIA", by decide, List.prefix_append _ _⟩
  units m h := by
    obtain ⟨w, rfl, -, hw⟩ := h
    intro c hc
    refine isCredentialUnit_of_isWord ?_
    rcases List.mem_append.mp hc with hc | hc
    · exact (by decide : ∀ c ∈ lit "AKIA", isWord c = true) c hc
    · have hclass := hw c hc
      simp only [isWord, isLetter, Bool.or_eq_true] at hclass ⊢
      tauto
  stops b m x _ h := fun _ _ _ d hd => by
    obtain ⟨-, m', x', -, -, hfresh, heq⟩ := takes_awsKey.mp (takes_of_run_done h)
    obtain rfl : x = x' := congrArg (fun s => s.1.after) heq
    by_contra hletter
    have hword := isWord_of_isLetter (show isLetter d = true by simpa using hletter)
    rw [hfresh d hd] at hword
    cases hword
  last_word _ m h := h.last

/-- The class of a bearer token. -/
def isBearerUnit (c : ℕ) : Bool := isAlphanumeric c || c ∈ lit "._~+/-"

def BearerToken (m : Text) : Prop :=
  ∃ blanks w ends, m = lit "Bearer" ++ (blanks ++ (w ++ ends)) ∧ blanks ≠ [] ∧
    (∀ c ∈ blanks, isSpace c = true) ∧ 20 ≤ w.length ∧ (∀ c ∈ w, isBearerUnit c = true) ∧
    ∀ c ∈ ends, c = 61

/-- A repetition of one unit. -/
theorem takes_many_units {b t : Text} {caps : Captures ℕ} {d : ℕ} {s' : Cursor ℕ × Captures ℕ} :
    (many (units [d])).Takes (⟨b, t⟩, caps) s' ↔
      ∃ u v, t = u ++ v ∧ (∀ c ∈ u, c = d) ∧ s' = (⟨u.reverse ++ b, v⟩, caps) := by
  have hsame : ∀ s s' : Cursor ℕ × Captures ℕ,
      (units [d]).Takes s s' ↔ (Regex.cls fun c => c = d).Takes s s' := by
    intro s s'
    constructor
    · rintro ⟨mid, hmid, rfl⟩
      exact hmid
    · exact fun h => ⟨s', h, rfl⟩
  have hstar : (many (units [d])).Takes (⟨b, t⟩, caps) s' ↔
      (many (.cls fun c => c = d)).Takes (⟨b, t⟩, caps) s' := by
    show Relation.ReflTransGen _ _ _ ↔ Relation.ReflTransGen _ _ _
    simp only [hsame]
  rw [hstar, takes_many]
  simp

theorem takes_bearer {b t : Text} {s' : Cursor ℕ × Captures ℕ} :
    redactionPatterns[6].pattern.Takes (⟨b, t⟩, []) s' ↔
      Fresh b ∧ ∃ m x, t = m ++ x ∧ BearerToken m ∧
      s' = (⟨m.reverse ++ b, x⟩, []) := by
  constructor
  · rintro ⟨_, ⟨hat, rfl⟩, _, hliteral, _, hblanks, _, hrun, hends⟩
    obtain ⟨v, rfl, rfl⟩ := takes_units.mp hliteral
    obtain ⟨blanks, v, rfl, hne, hblank, rfl⟩ := takes_many1.mp hblanks
    obtain ⟨w, v, rfl, hlength, hw, rfl⟩ := takes_atLeast.mp hrun
    obtain ⟨ends, x, rfl, hend, rfl⟩ := takes_many_units.mp hends
    refine ⟨(atBoundary_iff_fresh ⟨66, rfl, rfl⟩).mp hat,
      lit "Bearer" ++ (blanks ++ (w ++ ends)), x, by simp, ?_, by simp⟩
    exact ⟨blanks, w, ends, rfl, hne, hblank, hlength, hw, hend⟩
  · rintro ⟨hfresh, m, x, rfl, ⟨blanks, w, ends, rfl, hne, hblank, hlength, hw, hend⟩, rfl⟩
    refine ⟨_, ⟨(atBoundary_iff_fresh ⟨66, rfl, rfl⟩).mpr hfresh, rfl⟩, _,
      takes_units.mpr ⟨blanks ++ (w ++ (ends ++ x)), by simp, rfl⟩, _,
      takes_many1.mpr ⟨blanks, _, rfl, hne, hblank, rfl⟩, _,
      takes_atLeast.mpr ⟨w, _, rfl, hlength, hw, rfl⟩, ?_⟩
    exact takes_many_units.mpr ⟨ends, x, rfl, hend, by simp⟩

/-- Where no sign of equality is at the end, the run has been taken as far as it goes. -/
theorem bearer_stops {b m x : Text}
    (h : redactionPatterns[6].pattern.run done ⟨b, m ++ x⟩ [] = some (⟨m.reverse ++ b, x⟩, [])) :
    ∀ c ∈ m.getLast?, isWord c = true → ∀ d ∈ x.head?, isLetter d = false := by
  obtain ⟨_, -, h⟩ := run_seq_eq_some (s := (⟨b, m ++ x⟩, [])) h
  obtain ⟨s, -, h⟩ := run_seq_eq_some h
  obtain ⟨s, -, h⟩ := run_seq_eq_some h
  obtain ⟨⟨⟨before, after⟩, caps⟩, -, h⟩ := run_seq_eq_some (r := times 20 (.cls isBearerUnit)) h
  have htotal : ∀ pos, (many (units [61])).run done pos caps ≠ none := by
    rintro ⟨b, t⟩
    have hnothing : (many (units [61])).Takes (⟨b, t⟩, caps) (⟨b, t⟩, caps) :=
      takes_many_units.mpr ⟨[], t, rfl, by simp, rfl⟩
    exact run_ne_none hnothing (Option.some_ne_none _)
  have hgreedy := run_many isBearerUnit ((many (units [61])).run done) before after caps
  rw [takeGreedy_of_total htotal] at hgreedy
  obtain ⟨s', hends, hdone⟩ := run_eq_some (hgreedy.symm.trans h)
  obtain ⟨ends, rest, hafter, hend, rfl⟩ := takes_many_units.mp hends
  have hcursor :
    Cursor.mk (ends.reverse ++ ((after.takeWhile isBearerUnit).reverse ++ before)) rest =
      ⟨m.reverse ++ b, x⟩ := congrArg Prod.fst (Option.some.inj hdone)
  obtain ⟨hbefore, rfl⟩ := Cursor.mk.inj hcursor
  intro c hc hword
  cases ends with
  | nil =>
    refine isLetter_eq_false (p := isBearerUnit)
      (by simp +contextual [isBearerUnit, isAlphanumeric]) ?_
    intro d hd
    have hnot := List.head?_dropWhile_not isBearerUnit after
    rw [hafter, List.nil_append, Option.mem_def.mp hd] at hnot
    simpa using hnot
  | cons e ends =>
    have hlast := mem_head?_reverse_append hc b
    rw [← hbefore] at hlast
    have hsign :
      ∀ d ∈ ((e :: ends).reverse ++ ((after.takeWhile isBearerUnit).reverse ++ before)).head?,
        d = 61 := by
      intro d hd
      rw [List.head?_append_of_ne_nil _ (by simp)] at hd
      exact hend d (List.mem_reverse.mp (List.mem_of_mem_head? hd))
    rw [hsign c hlast] at hword
    cases hword

def bearer : Credential where
  entry := redactionPatterns[6]
  mask := lit "[redacted:bearer]"
  form := BearerToken
  bounded := false
  label_eq _ := rfl
  mem_masks := by decide
  takes_iff b t s' := takes_bearer.trans (by simp)
  word m h := by
    obtain ⟨blanks, w, ends, rfl, -⟩ := h
    exact ⟨lit "Bearer", by decide, List.prefix_append _ _⟩
  units m h := by
    obtain ⟨blanks, w, ends, rfl, -, hblank, -, hw, hend⟩ := h
    intro c hc
    simp only [List.mem_append] at hc
    rcases hc with hc | hc | hc | hc
    · exact (by decide : ∀ c ∈ lit "Bearer", isCredentialUnit c = true) c hc
    · simp [isCredentialUnit, hblank c hc]
    · rcases Bool.or_eq_true_iff.mp (hw c hc) with hc | hc
      · exact isCredentialUnit_of_isWord (isWord_of_isAlphanumeric hc)
      · exact (by decide : ∀ c ∈ lit "._~+/-", isCredentialUnit c = true) c (of_decide_eq_true hc)
    · rw [hend c hc]
      rfl
  stops b m x _ h := bearer_stops h
  last_word h := by cases h

/-! ### A private key -/

/-- The first or the last line of a key. -/
def KeyLine (start m : Text) : Prop :=
  ∃ kind, m = start ++ (kind ++ lit "PRIVATE KEY-----") ∧ ∀ c ∈ kind, isKeyKind c = true

def KeyBlock (m : Text) : Prop :=
  ∃ first middle last, m = first ++ (middle ++ last) ∧ KeyLine (lit "-----BEGIN ") first ∧
    KeyLine (lit "-----END ") last

def privateKey : RedactionPattern := redactionPatterns[5]

theorem takes_privateKey {b t : Text} {s' : Cursor ℕ × Captures ℕ} :
    privateKey.pattern.Takes (⟨b, t⟩, []) s' ↔
      ∃ m x, t = m ++ x ∧ KeyBlock m ∧ s' = (⟨m.reverse ++ b, x⟩, []) := by
  constructor
  · rintro ⟨_, hbegin, _, hkind, _, hfirst, _, hany, _, hend, _, hkind', hlast⟩
    obtain ⟨v, rfl, rfl⟩ := takes_units.mp hbegin
    obtain ⟨kind, v, rfl, hkinds, rfl⟩ := takes_many.mp hkind
    obtain ⟨v, rfl, rfl⟩ := takes_units.mp hfirst
    obtain ⟨middle, v, rfl, -, rfl⟩ := takes_lazy.mp hany
    obtain ⟨v, rfl, rfl⟩ := takes_units.mp hend
    obtain ⟨kind', v, rfl, hkinds', rfl⟩ := takes_many.mp hkind'
    obtain ⟨x, rfl, rfl⟩ := takes_units.mp hlast
    refine ⟨(lit "-----BEGIN " ++ (kind ++ lit "PRIVATE KEY-----")) ++ (middle ++
      (lit "-----END " ++ (kind' ++ lit "PRIVATE KEY-----"))), x, by simp, ?_, by simp⟩
    exact ⟨_, middle, _, rfl, ⟨kind, rfl, hkinds⟩, kind', rfl, hkinds'⟩
  · rintro ⟨m, x, rfl, ⟨_, middle, _, rfl, ⟨kind, rfl, hkinds⟩, kind', rfl, hkinds'⟩, rfl⟩
    refine ⟨_, takes_units.mpr ⟨kind ++ (lit "PRIVATE KEY-----" ++ (middle ++ (lit "-----END " ++
      (kind' ++ (lit "PRIVATE KEY-----" ++ x))))), by simp, rfl⟩, _,
      takes_many.mpr ⟨kind, _, rfl, hkinds, rfl⟩, _, takes_units.mpr ⟨_, rfl, rfl⟩, _,
      takes_lazy.mpr ⟨middle, _, rfl, by simp, rfl⟩, _, takes_units.mpr ⟨_, rfl, rfl⟩, _,
        takes_many.mpr ⟨kind', _, rfl, hkinds', rfl⟩, ?_⟩
    exact takes_units.mpr ⟨x, rfl, by simp⟩

/-! ### A secret that is assigned -/

def secretNames : List Text :=
  [lit "PASSWORD", lit "SECRET", lit "TOKEN", lit "API_KEY", lit "ACCESS_KEY", lit "SIGNING_KEY",
    lit "PRIVATE_KEY"]

/-- The class in front of a secret's name. -/
def isNameUnit (c : ℕ) : Bool := isUpper c || isDigit c || c = 95

/-- A name, in either case. -/
def SecretName (m : Text) : Prop :=
  ∃ front key word, m = front ++ key ∧
    (∀ c ∈ front, (isNameUnit c || isNameUnit (swapCase c)) = true) ∧
    word ∈ secretNames ∧ List.Forall₂ (fun c d => c = d ∨ swapCase c = d) key word

def assignment : RedactionPattern := redactionPatterns[7]

theorem isWord_of_isNameUnit {c : ℕ} (h : (isNameUnit c || isNameUnit (swapCase c)) = true) :
    isWord c = true := by
  simp only [isNameUnit, swapCase, isWord, isLetter, isUpper, isLower, isDigit, Bool.or_eq_true,
    Bool.and_eq_true, decide_eq_true_eq] at h ⊢
  split at h
  · omega
  · split at h <;> omega

/-- What spells a word of such units is made of such units. -/
theorem isWord_of_spelled {key word : Text}
    (h : List.Forall₂ (fun c d => c = d ∨ swapCase c = d) key word)
    (hword : ∀ d ∈ word, isNameUnit d = true) : ∀ c ∈ key, Ecma.isWord c = true := by
  induction h with
  | nil => simp
  | @cons c d key word hcd _ ih =>
    have hd : isNameUnit d = true := hword d List.mem_cons_self
    intro e he
    rcases List.mem_cons.mp he with rfl | he
    · refine isWord_of_isNameUnit (Bool.or_eq_true_iff.mpr ?_)
      rcases hcd with rfl | rfl
      · exact .inl hd
      · exact .inr hd
    · exact ih (fun d hd => hword d (List.mem_cons_of_mem _ hd)) e he

theorem SecretName.isWord {m : Text} (h : SecretName m) : ∀ c ∈ m, Ecma.isWord c = true := by
  obtain ⟨front, key, word, rfl, hfront, hword, hkey⟩ := h
  have hnames : ∀ word ∈ secretNames, ∀ d ∈ word, isNameUnit d = true := by decide
  intro c hc
  rcases List.mem_append.mp hc with hc | hc
  · exact isWord_of_isNameUnit (hfront c hc)
  · exact isWord_of_spelled hkey (hnames word hword) c hc

theorem SecretName.ne_nil {m : Text} (h : SecretName m) : m ≠ [] := by
  obtain ⟨front, key, word, rfl, -, hword, hkey⟩ := h
  have hnames : ∀ word ∈ secretNames, word ≠ [] := by decide
  intro hnil
  obtain rfl := (List.append_eq_nil_iff.mp hnil).2
  cases hkey
  exact hnames _ hword rfl

theorem SecretName.head {m : Text} (h : SecretName m) (t : Text) :
    ∃ c ∈ (m ++ t).head?, Ecma.isWord c = true := by
  obtain ⟨c, m, rfl⟩ := List.exists_cons_of_ne_nil h.ne_nil
  exact ⟨c, rfl, h.isWord c List.mem_cons_self⟩

theorem takes_secretName {b t : Text} {s' : Cursor ℕ × Captures ℕ} :
    (cat [many (.cls isNameUnit), oneOf (secretNames.map units)]).ignoreCase.Takes (⟨b, t⟩, []) s' ↔
      ∃ m x, t = m ++ x ∧ SecretName m ∧ s' = (⟨m.reverse ++ b, x⟩, []) := by
  constructor
  · rintro ⟨_, hfront, hkey⟩
    obtain ⟨front, v, rfl, hunits, rfl⟩ := takes_many.mp hfront
    rw [cat, ignoreCase_oneOf, takes_oneOf] at hkey
    obtain ⟨r, hr, hkey⟩ := hkey
    obtain ⟨literal, hliteral, rfl⟩ := List.mem_map.mp hr
    obtain ⟨word, hword, rfl⟩ := List.mem_map.mp hliteral
    obtain ⟨key, x, rfl, hspells, rfl⟩ := takes_ignoreCase_literal.mp hkey
    exact ⟨front ++ key, x, by simp, ⟨front, key, word, rfl, hunits, hword, hspells⟩, by simp⟩
  · rintro ⟨m, x, rfl, ⟨front, key, word, rfl, hunits, hword, hspells⟩, rfl⟩
    refine ⟨_, takes_many.mpr ⟨front, key ++ x, by simp, hunits, rfl⟩, ?_⟩
    rw [cat, ignoreCase_oneOf, takes_oneOf]
    refine ⟨_, List.mem_map_of_mem (List.mem_map_of_mem hword), ?_⟩
    exact takes_ignoreCase_literal.mpr ⟨key, x, rfl, hspells, by simp⟩

/-- A name, the sign of equality, and all that follows up to a blank. -/
theorem takes_assignment {b t : Text} {s' : Cursor ℕ × Captures ℕ} :
    assignment.pattern.Takes (⟨b, t⟩, []) s' ↔ Fresh b ∧ ∃ m v x, t = m ++ 61 :: (v ++ x) ∧
      SecretName m ∧ v ≠ [] ∧ (∀ c ∈ v, isSpace c = false) ∧
      s' = (⟨(m ++ 61 :: v).reverse ++ b, x⟩, [(1, m)]) := by
  have hblank : ∀ c, (!isSpace c || !isSpace (swapCase c)) = !isSpace c := fun c => by
    rw [isSpace_swapCase, Bool.or_self]
  have hsign : ∀ {b t : Text} {caps : Captures ℕ} {s' : Cursor ℕ × Captures ℕ},
      (units [61]).ignoreCase.Takes (⟨b, t⟩, caps) s' ↔
        ∃ v, t = 61 :: v ∧ s' = (⟨61 :: b, v⟩, caps) := by
    intro b t caps s'
    rw [takes_ignoreCase_literal]
    constructor
    · rintro ⟨u, v, rfl, hu, rfl⟩
      obtain ⟨c, rest, hc, hrest, rfl⟩ := List.forall₂_cons_right_iff.mp hu
      obtain rfl := List.forall₂_nil_right_iff.mp hrest
      obtain rfl : c = 61 := by
        rcases hc with rfl | hc
        · rfl
        · unfold swapCase at hc
          simp only [isUpper, isLower, Bool.and_eq_true, decide_eq_true_eq] at hc
          split_ifs at hc <;> omega
      exact ⟨v, rfl, rfl⟩
    · rintro ⟨v, rfl, rfl⟩
      exact ⟨[61], v, rfl, .cons (.inl rfl) .nil, rfl⟩
  have hvalue : ∀ {b t : Text} {caps : Captures ℕ} {s' : Cursor ℕ × Captures ℕ},
      (many1 (.cls fun c => !isSpace c)).ignoreCase.Takes (⟨b, t⟩, caps) s' ↔ ∃ v x, t = v ++ x ∧
        v ≠ [] ∧ (∀ c ∈ v, isSpace c = false) ∧ s' = (⟨v.reverse ++ b, x⟩, caps) := by
    intro b t caps s'
    have hsame : (many1 (.cls fun c => !isSpace c)).ignoreCase =
        many1 (.cls fun c => !isSpace c) := by
      simp only [many1, ignoreCase, hblank]
    rw [hsame, takes_many1]
    simp
  constructor
  · rintro ⟨_, ⟨hat, rfl⟩, _, ⟨mid, hname, rfl⟩, _, hequals, htaken⟩
    obtain ⟨m, _, rfl, hm, rfl⟩ := takes_secretName.mp hname
    obtain ⟨_, rfl, rfl⟩ := hsign.mp hequals
    obtain ⟨v, x, rfl, hne, hv, rfl⟩ := hvalue.mp htaken
    refine ⟨(atBoundary_iff_fresh (hm.head _)).mp hat, m, v, x, rfl, hm, hne, hv, ?_⟩
    simp
  · rintro ⟨hfresh, m, v, x, rfl, hm, hne, hv, rfl⟩
    refine ⟨_, ⟨(atBoundary_iff_fresh (hm.head _)).mpr hfresh, rfl⟩, _,
      ⟨_, takes_secretName.mpr ⟨m, _, rfl, hm, rfl⟩, rfl⟩, _, hsign.mpr ⟨_, rfl, rfl⟩, ?_⟩
    refine hvalue.mpr ⟨v, x, rfl, hne, hv, ?_⟩
    simp

/-! ### A password in a connection string -/

def connection : RedactionPattern := redactionPatterns[8]

/-- A unit of a user's name. -/
def isUserUnit (c : ℕ) : Bool := c ∉ lit ":/@" && !isSpace c

/-- A unit of a password. -/
def isPasswordUnit (c : ℕ) : Bool := c ≠ 64 && !isSpace c

/-- What stands in front of the password. -/
structure Login (m scheme user : Text) : Prop where
  eq : m = scheme ++ (lit "://" ++ (user ++ [58]))
  scheme_ne : scheme ≠ []
  scheme_units : ∀ c ∈ scheme, isWord c = true
  user_ne : user ≠ []
  user_units : ∀ c ∈ user, isUserUnit c = true

theorem Login.head {m scheme user : Text} (h : Login m scheme user) (t : Text) :
    ∃ c ∈ (m ++ t).head?, isWord c = true := by
  obtain ⟨c, rest, hscheme⟩ := List.exists_cons_of_ne_nil h.scheme_ne
  refine ⟨c, by rw [h.eq, hscheme]; rfl, h.scheme_units c ?_⟩
  rw [hscheme]
  exact List.mem_cons_self

theorem Login.ne_nil {m scheme user : Text} (h : Login m scheme user) : m ≠ [] := by
  rw [h.eq]
  simp [h.scheme_ne]

theorem isPasswordUnit_of_isWord {c : ℕ} (h : isWord c = true) : isPasswordUnit c = true := by
  have hspace : isSpace c = false := by
    by_contra hspace
    rw [isWord_of_isSpace (by simpa using hspace)] at h
    cases h
  have hat : c ≠ 64 := by
    rintro rfl
    cases h
  simp [isPasswordUnit, hspace, hat]

/-- A login would do as a password. -/
theorem Login.password_units {m scheme user : Text} (h : Login m scheme user) :
    ∀ c ∈ m, isPasswordUnit c = true := by
  rw [h.eq]
  intro c hc
  simp only [List.mem_append] at hc
  rcases hc with hc | hc | hc | hc
  · exact isPasswordUnit_of_isWord (h.scheme_units c hc)
  · exact (by decide : ∀ c ∈ lit "://", isPasswordUnit c = true) c hc
  · have huser := h.user_units c hc
    simp only [isUserUnit, Bool.and_eq_true, decide_eq_true_eq] at huser
    have hat : c ≠ 64 := by
      rintro rfl
      exact huser.1 (by decide)
    simpa [isPasswordUnit, hat] using huser.2
  · rw [List.mem_singleton.mp hc]
    rfl

theorem Login.not_mem {m scheme user : Text} (h : Login m scheme user) : 64 ∉ m := by
  intro hmem
  cases h.password_units 64 hmem

theorem Login.count {m scheme user : Text} (h : Login m scheme user) : m.count 58 = 2 := by
  have hscheme : 58 ∉ scheme := fun hmem => by cases h.scheme_units 58 hmem
  have huser : 58 ∉ user := fun hmem => by cases h.user_units 58 hmem
  rw [h.eq, List.count_append, List.count_append, List.count_append, List.count_eq_zero.mpr hscheme,
    List.count_eq_zero.mpr huser]
  rfl

theorem Login.getLast? {m scheme user : Text} (h : Login m scheme user) : m.getLast? = some 58 := by
  rw [h.eq]
  simp

/-- A login ends where its password begins, and nowhere before. -/
theorem Login.not_within {m scheme user m' scheme' user' a w : Text} (h : Login m scheme user)
    (h' : Login m' scheme' user') (hsplit : m = a ++ (m' ++ w)) (hw : w ≠ []) : False := by
  have hcolon : 58 ∈ w := by
    have hlast := h.getLast?
    rw [hsplit, ← List.append_assoc, List.getLast?_append_of_ne_nil _ hw] at hlast
    exact List.mem_of_mem_getLast? hlast
  have hpos := List.count_pos_iff.mpr hcolon
  have hcount := h.count
  rw [hsplit, List.count_append, List.count_append, h'.count] at hcount
  omega

/-- The scheme and its colon. -/
theorem takes_scheme {b t : Text} {caps : Captures ℕ} {s' : Cursor ℕ × Captures ℕ} :
    (Regex.group 1 (cat [many1 (.cls isWord), str ":"])).Takes (⟨b, t⟩, caps) s' ↔
      ∃ scheme v, t = scheme ++ 58 :: v ∧ scheme ≠ [] ∧ (∀ c ∈ scheme, isWord c = true) ∧
        s' = (⟨58 :: (scheme.reverse ++ b), v⟩, (1, scheme ++ [58]) :: caps) := by
  have htake : ∀ scheme v : Text, (scheme ++ 58 :: v).take ((scheme ++ 58 :: v).length - v.length) =
      scheme ++ [58] := by
    intro scheme v
    have hsplit : scheme ++ 58 :: v = (scheme ++ [58]) ++ v := by simp
    rw [hsplit, take_consumed]
  constructor
  · rintro ⟨mid, ⟨_, hword, hcolon⟩, rfl⟩
    obtain ⟨scheme, v, rfl, hne, hunits, rfl⟩ := takes_many1.mp hword
    obtain ⟨v, rfl, rfl⟩ := takes_units.mp hcolon
    refine ⟨scheme, v, rfl, hne, hunits, ?_⟩
    rw [← htake scheme v]
    rfl
  · rintro ⟨scheme, v, rfl, hne, hunits, rfl⟩
    refine ⟨_, ⟨_, takes_many1.mpr ⟨scheme, _, rfl, hne, hunits, rfl⟩,
      takes_units.mpr ⟨v, rfl, rfl⟩⟩, ?_⟩
    rw [← htake scheme v]
    rfl

theorem takes_user {b t : Text} {caps : Captures ℕ} {s' : Cursor ℕ × Captures ℕ} :
    (Regex.group 2 (many1 (.cls isUserUnit))).Takes (⟨b, t⟩, caps) s' ↔
      ∃ user v, t = user ++ v ∧ user ≠ [] ∧ (∀ c ∈ user, isUserUnit c = true) ∧
        s' = (⟨user.reverse ++ b, v⟩, (2, user) :: caps) := by
  constructor
  · rintro ⟨mid, huser, rfl⟩
    obtain ⟨user, v, rfl, hne, hunits, rfl⟩ := takes_many1.mp huser
    refine ⟨user, v, rfl, hne, hunits, ?_⟩
    rw [take_consumed]
  · rintro ⟨user, v, rfl, hne, hunits, rfl⟩
    refine ⟨_, takes_many1.mpr ⟨user, _, rfl, hne, hunits, rfl⟩, ?_⟩
    rw [take_consumed]

/-- A scheme, a user and a password in front of a host. -/
theorem takes_connection {b t : Text} {s' : Cursor ℕ × Captures ℕ} :
    connection.pattern.Takes (⟨b, t⟩, []) s' ↔ Fresh b ∧
      ∃ m scheme user v x, t = m ++ (v ++ 64 :: x) ∧
      Login m scheme user ∧ v ≠ [] ∧ (∀ c ∈ v, isPasswordUnit c = true) ∧
      s' = (⟨(m ++ (v ++ [64])).reverse ++ b, x⟩, [(2, user), (1, scheme ++ [58])]) := by
  constructor
  · rintro ⟨_, ⟨hat, rfl⟩, _, hscheme, _, hslashes, _, huser, _, hcolon, _, hpassword, hend⟩
    obtain ⟨scheme, v, rfl, hne, hunits, rfl⟩ := takes_scheme.mp hscheme
    obtain ⟨v, rfl, rfl⟩ := takes_units.mp hslashes
    obtain ⟨user, v, rfl, hne', hunits', rfl⟩ := takes_user.mp huser
    obtain ⟨v, rfl, rfl⟩ := takes_units.mp hcolon
    obtain ⟨password, v, rfl, hne'', hunits'', rfl⟩ := takes_many1.mp hpassword
    obtain ⟨x, rfl, rfl⟩ := takes_units.mp hend
    have hlogin : Login (scheme ++ (lit "://" ++ (user ++ [58]))) scheme user :=
      ⟨rfl, hne, hunits, hne', hunits'⟩
    have hhead := hlogin.head (password ++ 64 :: x)
    rw [List.append_assoc] at hhead
    refine ⟨(atBoundary_iff_fresh ?_).mp hat, _, scheme, user, password, x, ?_, hlogin, hne'',
      hunits'', ?_⟩
    · simpa [lit] using hhead
    · simp [lit]
    · simp [lit]
  · rintro ⟨hfresh, m, scheme, user, v, x, rfl, hlogin, hne, hv, rfl⟩
    have hat := (atBoundary_iff_fresh (hlogin.head (v ++ 64 :: x))).mpr hfresh
    obtain ⟨rfl, hscheme, hunits, huser, hunits'⟩ := hlogin
    refine ⟨_, ⟨hat, rfl⟩, _, takes_scheme.mpr
      ⟨scheme, lit "//" ++ (user ++ (58 :: (v ++ 64 :: x))),
      by simp [lit], hscheme, hunits, rfl⟩, _, takes_units.mpr ⟨_, rfl, rfl⟩, _,
      takes_user.mpr ⟨user, _, rfl, huser, hunits', rfl⟩, _,
        takes_units.mpr ⟨v ++ 64 :: x, rfl, rfl⟩, _,
      takes_many1.mpr ⟨v, 64 :: x, rfl, hne, hv, rfl⟩, takes_units.mpr ⟨x, rfl, ?_⟩⟩
    simp [lit]

/-! ### What is cut out -/

/-- What is common to everything that is cut out, between what stands in front and what follows. -/
structure Cut (b r l x : Text) : Prop where
  mem_masks : l ∈ masks
  ne_nil : r ≠ []
  front : ∀ c ∈ b.head?, isWord c = true → ∀ d ∈ r.head?, isWord d = false
  back : ∀ c ∈ r.getLast?, isWord c = true → ∀ d ∈ x.head?, isLetter d = false

structure CredentialCut (credential : Credential) (b r l x : Text) : Prop where
  mask : l = credential.mask
  fresh : Fresh b
  form : credential.form r
  bounded : credential.bounded = true → Fresh x
  stops : ∀ c ∈ r.getLast?, isWord c = true → ∀ d ∈ x.head?, isLetter d = false

structure KeyCut (b r l x : Text) : Prop where
  mask : l = lit "[redacted:private-key]"
  block : KeyBlock r

structure AssignmentCut (b r l x : Text) : Prop where
  mask : l = lit "[redacted]"
  ne_nil : r ≠ []
  units : ∀ c ∈ r, isSpace c = false
  sign : b.head? = some 61
  ends : ∀ c ∈ x.head?, isSpace c = true

structure PasswordCut (b r l x : Text) : Prop where
  mask : l = lit "[redacted]"
  ne_nil : r ≠ []
  units : ∀ c ∈ r, isPasswordUnit c = true
  colon : b.head? = some 58
  host : x.head? = some 64

section Cuts

variable {b r l x : Text}

theorem Credential.ne_nil {credential : Credential} {m : Text} (h : credential.form m) :
    m ≠ [] := by
  obtain ⟨word, hword, hbegins⟩ := credential.word m h
  have hwords : ∀ word ∈ credentialWords, word ≠ [] := by decide
  rintro rfl
  exact hwords word hword (List.prefix_nil.mp hbegins)

theorem CredentialCut.cut {credential : Credential} (h : CredentialCut credential b r l x) :
    Cut b r l x := by
  refine ⟨h.mask ▸ credential.mem_masks, credential.ne_nil h.form, ?_, h.stops⟩
  intro c hc hword
  rw [h.fresh c hc] at hword
  cases hword

/-- The first line of a key begins with a dash, and the last ends with one. -/
theorem KeyBlock.ends {m : Text} (h : KeyBlock m) : m.head? = some 45 ∧ m.getLast? = some 45 := by
  obtain ⟨_, middle, _, rfl, ⟨kind, rfl, -⟩, kind', rfl, -⟩ := h
  have hend : (lit "PRIVATE KEY-----") ≠ [] := by decide
  refine ⟨rfl, ?_⟩
  rw [List.getLast?_append_of_ne_nil _ (by simp [hend]),
    List.getLast?_append_of_ne_nil _ (by simp [hend]),
    List.getLast?_append_of_ne_nil _ (by simp [hend]), List.getLast?_append_of_ne_nil _ hend]
  rfl

theorem KeyCut.cut (h : KeyCut b r l x) : Cut b r l x := by
  obtain ⟨hhead, hlast⟩ := h.block.ends
  refine ⟨by rw [h.mask]; decide, ?_, ?_, ?_⟩
  · rintro rfl
    cases hhead
  · intro c _ _ d hd
    obtain rfl : 45 = d := Option.some.inj (hhead.symm.trans hd)
    rfl
  · intro c hc hword
    obtain rfl : 45 = c := Option.some.inj (hlast.symm.trans hc)
    cases hword

theorem isLetter_of_isSpace {c : ℕ} (h : isSpace c = true) : isLetter c = false := by
  have hword := isWord_of_isSpace h
  by_contra hletter
  rw [isWord_of_isLetter (by simpa using hletter)] at hword
  cases hword

theorem AssignmentCut.cut (h : AssignmentCut b r l x) : Cut b r l x := by
  refine ⟨by rw [h.mask]; decide, h.ne_nil, ?_, fun _ _ _ d hd => isLetter_of_isSpace (h.ends d hd)⟩
  intro c hc hword
  obtain rfl : 61 = c := Option.some.inj (h.sign.symm.trans hc)
  cases hword

theorem PasswordCut.cut (h : PasswordCut b r l x) : Cut b r l x := by
  refine ⟨by rw [h.mask]; decide, h.ne_nil, ?_, ?_⟩
  · intro c hc hword
    obtain rfl : 58 = c := Option.some.inj (h.colon.symm.trans hc)
    cases hword
  · intro _ _ _ d hd
    obtain rfl : 64 = d := Option.some.inj (h.host.symm.trans hd)
    rfl

end Cuts

/-! ### The passes -/

section Passes

variable {P : Text → Text → Captures ℕ → Text → Prop} {b x y : Text}

/-- Nothing matches from here on. -/
def Passes (r : Regex ℕ) (b t : Text) : Prop := ∀ s', ¬ r.Takes (⟨b, t⟩, []) s'

/-- What a match takes is told by where it ends. -/
theorem eq_of_cursor_eq {m m' x x' : Text} {caps caps' : Captures ℕ} (hsplit : m ++ x = m' ++ x')
    (h : ((⟨m.reverse ++ b, x⟩, caps) : Cursor ℕ × Captures ℕ) = (⟨m'.reverse ++ b, x'⟩, caps')) :
    m = m' ∧ x = x' ∧ caps = caps' := by
  obtain ⟨hcursor, hcaps⟩ := Prod.mk.inj h
  obtain ⟨-, rfl⟩ := Cursor.mk.inj hcursor
  exact ⟨List.append_cancel_right hsplit, rfl, hcaps⟩

theorem masked_credential (credential : Credential)
    (h : Replaced credential.entry.pattern credential.entry.label P b x y) (b' : Text) :
    Masked (Passes credential.entry.pattern) (CredentialCut credential) b b' x y := by
  induction h generalizing b' with
  | nil b => exact .nil b b'
  | skip hnone _ ih => exact .keep (run_done_eq_none_iff.mp hnone) (ih _)
  | @found b m x y caps _ hrun _ _ ih =>
    obtain ⟨hfresh, m', x', hsplit, hform, hbounded, heq⟩ :=
      (credential.takes_iff _ _ _).mp (takes_of_run_done hrun)
    obtain ⟨rfl, rfl, rfl⟩ := eq_of_cursor_eq hsplit heq
    exact .mask ⟨credential.label_eq _, hfresh, hform, hbounded,
      credential.stops b m x hform hrun⟩ (ih _)

theorem masked_privateKey (h : Replaced privateKey.pattern privateKey.label P b x y) (b' : Text) :
    Masked (Passes privateKey.pattern) KeyCut b b' x y := by
  induction h generalizing b' with
  | nil b => exact .nil b b'
  | skip hnone _ ih => exact .keep (run_done_eq_none_iff.mp hnone) (ih _)
  | @found b m x y caps _ hrun _ _ ih =>
    obtain ⟨m', x', hsplit, hblock, heq⟩ := takes_privateKey.mp (takes_of_run_done hrun)
    obtain ⟨rfl, rfl, rfl⟩ := eq_of_cursor_eq hsplit heq
    exact .mask ⟨rfl, hblock⟩ (ih _)

/-- A password follows: what stands in front is a login, and an `@` ends what follows. -/
def Due (b t : Text) : Prop :=
  (∃ login scheme user front, b = login.reverse ++ front ∧ Fresh front ∧ Login login scheme user) ∧
    ∃ v x, t = v ++ 64 :: x ∧ v ≠ [] ∧ ∀ c ∈ v, isPasswordUnit c = true

/-- From no place since the last `@` the pattern has matched. -/
def Unmatched (b t : Text) : Prop :=
  ∀ u front, b = u.reverse ++ front → u ≠ [] → 64 ∉ u → Passes connection.pattern front (u ++ t)

theorem Unmatched.not_due {t : Text} (h : Unmatched b t) : ¬ Due b t := by
  rintro ⟨⟨login, scheme, user, front, rfl, hfresh, hlogin⟩, v, x, rfl, hne, hv⟩
  exact h login front rfl hlogin.ne_nil hlogin.not_mem _
    (takes_connection.mpr ⟨hfresh, login, scheme, user, v, x, rfl, hlogin, hne, hv, rfl⟩)

/-- Another unit in front of which nothing matches. -/
theorem Unmatched.cons {c : ℕ} {t : Text} (h : Unmatched b (c :: t))
    (hhere : Passes connection.pattern b (c :: t)) : Unmatched (c :: b) t := by
  intro u front hsplit hne hat
  obtain ⟨u, d, rfl⟩ := (List.eq_nil_or_concat' u).resolve_left hne
  rw [List.reverse_append, List.reverse_singleton, List.singleton_append, List.cons_append]
    at hsplit
  obtain ⟨rfl, rfl⟩ := List.cons.inj hsplit
  rw [List.append_assoc, List.singleton_append]
  by_cases hnil : u = []
  · subst hnil
    exact hhere
  · exact h u front rfl hnil fun hmem => hat (List.mem_append_left _ hmem)

/-- Behind an `@` every place lies behind it. -/
theorem unmatched_of_host {t : Text} : Unmatched (64 :: b) t := by
  intro u front hsplit hne hat
  obtain ⟨u, d, rfl⟩ := (List.eq_nil_or_concat' u).resolve_left hne
  rw [List.reverse_append, List.reverse_singleton, List.singleton_append, List.cons_append]
    at hsplit
  obtain ⟨rfl, -⟩ := List.cons.inj hsplit
  exact absurd (List.mem_append_right _ (List.mem_singleton_self _)) hat

theorem unmatched_nil (t : Text) : Unmatched [] t := by
  intro u front hsplit hne
  exact absurd (List.reverse_eq_nil_iff.mp (List.append_eq_nil_iff.mp hsplit.symm).1) hne

/-- Within a login no password is due. -/
theorem Login.not_due {login scheme user u w v : Text} (h : Login login scheme user)
    (hunmatched : Unmatched b (login ++ (v ++ 64 :: x))) (hsplit : login = u ++ w) (hw : w ≠ [])
    (hv : ∀ c ∈ v, isPasswordUnit c = true) : ¬ Due (u.reverse ++ b) (w ++ (v ++ 64 :: x)) := by
  rintro ⟨⟨login', scheme', user', front, hfront, hfresh, hlogin'⟩, -⟩
  rcases List.append_eq_append_iff.mp hfront with ⟨a, ha, rfl⟩ | ⟨a, ha, -⟩
  · -- the login that stands in front begins before this one
    obtain rfl : login' = a.reverse ++ u := by simpa using congrArg List.reverse ha
    by_cases hnil : a = []
    · subst hnil
      rw [List.reverse_nil, List.nil_append] at hlogin'
      exact h.not_within hlogin' (a := []) hsplit hw
    · refine hunmatched a.reverse front (by simp) (by simpa using hnil)
        (fun hmem => hlogin'.not_mem (List.mem_append_left _ hmem)) _
        (takes_connection.mpr ⟨hfresh, a.reverse ++ u, scheme', user', w ++ v, x, ?_, hlogin', ?_,
          ?_, rfl⟩)
      · rw [hsplit]
        simp
      · simp [hw]
      · intro c hc
        rcases List.mem_append.mp hc with hc | hc
        · exact h.password_units c (hsplit ▸ List.mem_append_right u hc)
        · exact hv c hc
  · obtain rfl : u = a.reverse ++ login' := by simpa using congrArg List.reverse ha
    exact h.not_within hlogin' (by rw [hsplit, List.append_assoc]) hw

/-- No password is kept; the host is kept with the rest. -/
theorem masked_connection (h : Replaced connection.pattern connection.label P b x y)
    (hunmatched : Unmatched b x) (b' : Text) :
    Masked (fun b t => ¬ Due b t) PasswordCut b b' x y := by
  induction h generalizing b' with
  | nil b => exact .nil b b'
  | skip hnone _ ih =>
    exact .keep hunmatched.not_due (ih (hunmatched.cons (run_done_eq_none_iff.mp hnone)) _)
  | @found b m x y caps _ hrun _ _ ih =>
    obtain ⟨-, login, scheme, user, v, x', hsplit, hlogin, hne, hv, heq⟩ :=
      takes_connection.mp (takes_of_run_done hrun)
    obtain ⟨rfl, rfl, rfl⟩ := eq_of_cursor_eq (by simpa using hsplit) heq
    have hlabel : connection.label [(2, user), (1, scheme ++ [58])] ++ y =
        login ++ (lit "[redacted]" ++ 64 :: y) := by
      have hscheme : groupText 1 [(2, user), (1, scheme ++ [58])] = scheme ++ [58] := rfl
      have huser : groupText 2 [(2, user), (1, scheme ++ [58])] = user := rfl
      show groupText 1 _ ++ lit "//" ++ groupText 2 _ ++ lit ":[redacted]@" ++ y = _
      rw [hscheme, huser, hlogin.eq]
      simp [lit]
    have htext : login ++ (v ++ [64]) ++ x = login ++ (v ++ 64 :: x) := by simp
    rw [htext] at hunmatched
    rw [hlabel, htext]
    refine Masked.keeps (fun u w hsplit hw => hlogin.not_due hunmatched hsplit hw hv)
      (.mask ⟨rfl, hne, hv, ?_, rfl⟩ (.keep ?_ ?_))
    · rw [hlogin.eq]
      simp
    · rintro ⟨-, w, t, hw, hwne, hwunits⟩
      obtain ⟨c, w, rfl⟩ := List.exists_cons_of_ne_nil hwne
      have hhost := hwunits c List.mem_cons_self
      rw [← (List.cons.inj hw).1] at hhost
      cases hhost
    · have hrest := ih (by simpa using unmatched_of_host)
        (64 :: ((lit "[redacted]").reverse ++ (login.reverse ++ b')))
      simpa using hrest

/-- A value is due: what stands in front assigns it to a secret, and it has not ended. -/
def Owed (b t : Text) : Prop :=
  (∃ name front, b = 61 :: (name.reverse ++ front) ∧ Fresh front ∧ SecretName name) ∧
    ∃ c ∈ t.head?, isSpace c = false

/-- The units of a name, with the sign of equality behind them or not. -/
def Started (u : Text) : Prop :=
  (∀ c ∈ u, isWord c = true) ∨ ∃ name, u = name ++ [61] ∧ ∀ c ∈ name, isWord c = true

/-- From no place at which a name could have begun the pattern has matched. -/
def Refused (b t : Text) : Prop :=
  ∀ u front, b = u.reverse ++ front → u ≠ [] → Started u → Passes assignment.pattern front (u ++ t)

theorem Refused.not_owed {t : Text} (h : Refused b t) : ¬ Owed b t := by
  rintro ⟨⟨name, front, rfl, hfresh, hname⟩, c, hc, hspace⟩
  obtain ⟨rest, rfl⟩ : ∃ rest, t = c :: rest := by
    cases t with
    | nil => cases hc
    | cons d rest => exact ⟨rest, by rw [show d = c from Option.some.inj hc]⟩
  refine h (name ++ [61]) front (by simp) (by simp) (.inr ⟨name, rfl, hname.isWord⟩) _
    (takes_assignment.mpr ⟨hfresh, name, [c], rest, by simp, hname, by simp, ?_, rfl⟩)
  simpa using hspace

/-- Another unit in front of which nothing matches. -/
theorem Refused.cons {c : ℕ} {t : Text} (h : Refused b (c :: t))
    (hhere : Passes assignment.pattern b (c :: t)) : Refused (c :: b) t := by
  intro u front hsplit hne hstarted
  obtain ⟨u, d, rfl⟩ := (List.eq_nil_or_concat' u).resolve_left hne
  rw [List.reverse_append, List.reverse_singleton, List.singleton_append, List.cons_append]
    at hsplit
  obtain ⟨rfl, rfl⟩ := List.cons.inj hsplit
  rw [List.append_assoc, List.singleton_append]
  by_cases hnil : u = []
  · subst hnil
    exact hhere
  · refine h u front rfl hnil (.inl ?_)
    rcases hstarted with hword | ⟨name, heq, hword⟩
    · exact fun c hc => hword c (List.mem_append_left _ hc)
    · obtain ⟨rfl, -⟩ := List.append_inj' heq rfl
      exact hword

theorem refused_nil (t : Text) : Refused [] t := by
  intro u front hsplit hne
  exact absurd (List.reverse_eq_nil_iff.mp (List.append_eq_nil_iff.mp hsplit.symm).1) hne

/-- In front of a blank, and at the end, no name is followed by a value. -/
theorem refused_of_blank {t : Text} (ht : ∀ c ∈ t.head?, isSpace c = true) : Refused b t := by
  rintro u front - - hstarted s' htakes
  obtain ⟨-, name, v, x, hsplit, hname, hne, hv, -⟩ := takes_assignment.mp htakes
  have hsign : ∀ w rest : Text, t = w ++ 61 :: rest → (∀ c ∈ w, isWord c = true) → False := by
    intro w rest hw hword
    cases w with
    | nil => exact absurd (ht 61 (by rw [hw]; rfl)) (by decide)
    | cons c w =>
      have hspace := isWord_of_isSpace (ht c (by rw [hw]; rfl))
      rw [hword c List.mem_cons_self] at hspace
      cases hspace
  rcases List.append_eq_append_iff.mp hsplit with ⟨w, rfl, hw⟩ | ⟨w, rfl, hw⟩
  · exact hsign w _ hw fun c hc => hname.isWord c (List.mem_append_right _ hc)
  · cases w with
    | nil => exact hsign [] (v ++ x) (by simpa using hw.symm) (by simp)
    | cons d w =>
      obtain ⟨rfl, hrest⟩ := List.cons.inj hw
      rcases hstarted with hword | ⟨name', heq, hword⟩
      · exact absurd (hword 61 (by simp)) (by decide)
      · have hnil : w = [] := by
          rcases w.eq_nil_or_concat with hnil | ⟨w, last, rfl⟩
          · exact hnil
          · rw [List.concat_eq_append, ← List.cons_append, ← List.append_assoc] at heq
            have hmem : 61 ∈ name' := by
              rw [← (List.append_inj' heq rfl).1]
              simp
            exact absurd (hword 61 hmem) (by decide)
        subst hnil
        obtain ⟨c, v, rfl⟩ := List.exists_cons_of_ne_nil hne
        have hspace := ht c (by rw [← show c :: (v ++ x) = t from hrest]; rfl)
        rw [hv c List.mem_cons_self] at hspace
        cases hspace

/-- What follows the value of an assignment. -/
theorem assignment_stops {m : Text} {caps : Captures ℕ}
    (h : assignment.pattern.run done ⟨b, m ++ x⟩ [] = some (⟨m.reverse ++ b, x⟩, caps)) :
    ∀ c ∈ x.head?, isSpace c = true := by
  obtain ⟨_, -, h⟩ := run_seq_eq_some (s := (⟨b, m ++ x⟩, [])) h
  obtain ⟨s, -, h⟩ := run_seq_eq_some h
  obtain ⟨s, -, h⟩ := run_seq_eq_some h
  obtain ⟨⟨⟨before, after⟩, caps'⟩, -, h⟩ := run_seq_eq_some h
  have hstop := run_star_done.symm.trans h
  have hcursor : Cursor.mk _ (after.dropWhile fun c => !isSpace c || !isSpace (swapCase c)) =
      ⟨m.reverse ++ b, x⟩ := congrArg Prod.fst (Option.some.inj hstop)
  obtain ⟨-, hx⟩ := Cursor.mk.inj hcursor
  intro c hc
  have hnot := List.head?_dropWhile_not (fun c => !isSpace c || !isSpace (swapCase c)) after
  rw [hx, Option.mem_def.mp hc] at hnot
  simpa [isSpace_swapCase] using hnot

/-- No value of a secret is kept. -/
theorem masked_assignment (h : Replaced assignment.pattern assignment.label P b x y)
    (hrefused : Refused b x) (b' : Text) :
    Masked (fun b t => ¬ Owed b t) AssignmentCut b b' x y := by
  induction h generalizing b' with
  | nil b => exact .nil b b'
  | skip hnone _ ih =>
    exact .keep hrefused.not_owed (ih (hrefused.cons (run_done_eq_none_iff.mp hnone)) _)
  | @found b m x y caps _ hrun _ _ ih =>
    obtain ⟨-, name, v, x', hsplit, hname, hne, hv, heq⟩ :=
      takes_assignment.mp (takes_of_run_done hrun)
    obtain ⟨rfl, rfl, rfl⟩ := eq_of_cursor_eq (by simpa using hsplit) heq
    have hends := assignment_stops hrun
    have hlabel : assignment.label [(1, name)] ++ y =
        (name ++ [61]) ++ (lit "[redacted]" ++ y) := by
      show groupText 1 _ ++ lit "=[redacted]" ++ y = _
      rw [show groupText 1 [(1, name)] = name from rfl]
      simp [lit]
    have htext : name ++ 61 :: v ++ x = (name ++ [61]) ++ (v ++ x) := by simp
    rw [hlabel, htext]
    refine Masked.keeps ?_ (.mask ⟨rfl, hne, hv, by simp, hends⟩ ?_)
    · intro u w hsplit hwne howed
      cases hu : u with
      | nil =>
        subst hu
        rw [List.nil_append] at hsplit
        rw [← hsplit, ← htext] at howed
        exact hrefused.not_owed howed
      | cons c u' =>
        -- the unit in front belongs to the name, so it is no sign of equality
        obtain ⟨⟨_, front, hfront, -⟩, -⟩ := howed
        have hune : u ≠ [] := by simp [hu]
        have hsign : 61 ∈ u := by
          have hhead := congrArg List.head? hfront
          rw [List.head?_append_of_ne_nil _ (by simpa using hune)] at hhead
          exact List.mem_reverse.mp (List.mem_of_mem_head? hhead)
        have hname' : u <+: name := by
          rcases List.append_eq_append_iff.mp hsplit with ⟨a, rfl, ha⟩ | ⟨a, rfl, -⟩
          · rw [List.singleton_eq_append_iff] at ha
            obtain ⟨rfl, -⟩ := ha.resolve_right fun h => hwne h.2
            simp
          · exact List.prefix_append _ _
        exact absurd (hname.isWord 61 (hname'.subset hsign)) (by decide)
    · have hrest :=
        ih (refused_of_blank hends) ((lit "[redacted]").reverse ++ ((name ++ [61]).reverse ++ b'))
      simpa using hrest

/-- `output.replace(pattern, label)`. -/
def pass (entry : RedactionPattern) (text : Text) : Text := entry.pattern.replace entry.label text

theorem credential_consumes (credential : Credential) : credential.entry.pattern.Consumes := by
  intro b t s' htakes
  obtain ⟨-, m, x, rfl, hform, -, rfl⟩ := (credential.takes_iff _ _ _).mp htakes
  have hpos := List.length_pos_iff.mpr (credential.ne_nil hform)
  rw [List.length_append]
  exact Nat.lt_add_of_pos_left hpos

theorem privateKey_consumes : privateKey.pattern.Consumes := by
  intro b t s' htakes
  obtain ⟨m, x, rfl, hblock, rfl⟩ := takes_privateKey.mp htakes
  have hne : m ≠ [] := by
    rintro rfl
    cases hblock.ends.1
  rw [List.length_append]
  exact Nat.lt_add_of_pos_left (List.length_pos_iff.mpr hne)

theorem assignment_consumes : assignment.pattern.Consumes := by
  intro b t s' htakes
  obtain ⟨-, m, v, x, rfl, -, -, -, rfl⟩ := takes_assignment.mp htakes
  simp only [List.length_append, List.length_cons]
  omega

theorem connection_consumes : connection.pattern.Consumes := by
  intro b t s' htakes
  obtain ⟨-, m, scheme, user, v, x, rfl, -, -, -, rfl⟩ := takes_connection.mp htakes
  simp only [List.length_append, List.length_cons]
  omega

/-- The pass of a pattern, met with nothing asked of the matches. -/
theorem replaced_pass {entry : RedactionPattern} (h : entry.pattern.Consumes) (text : Text) :
    Replaced entry.pattern entry.label (fun _ _ _ _ => True) [] text (pass entry text) :=
  replaced_replace h (eachMatch_of_forall fun _ _ _ _ _ => trivial)

/-- The patterns that cut out the whole of what they match. -/
def credentials : List Credential :=
  [githubToken, githubPat, anthropicKey, openaiKey, awsKey, bearer]

theorem redactionPatterns_eq : redactionPatterns =
    [githubToken.entry, githubPat.entry, anthropicKey.entry, openaiKey.entry, awsKey.entry,
      privateKey, bearer.entry, assignment, connection] := rfl

theorem entry_cases {entry : RedactionPattern} (h : entry ∈ redactionPatterns) :
    (∃ credential ∈ credentials, entry = credential.entry) ∨ entry = privateKey ∨
      entry = assignment ∨
      entry = connection := by
  rw [redactionPatterns_eq] at h
  simp only [List.mem_cons, List.not_mem_nil, or_false] at h
  simp only [credentials, List.exists_mem_cons_iff, List.not_mem_nil, false_and, exists_false,
    or_false]
  tauto

theorem consumes_of_mem {entry : RedactionPattern} (h : entry ∈ redactionPatterns) :
    entry.pattern.Consumes := by
  rcases entry_cases h with ⟨credential, -, rfl⟩ | rfl | rfl | rfl
  · exact credential_consumes credential
  · exact privateKey_consumes
  · exact assignment_consumes
  · exact connection_consumes

/-- **Every pass masks the text.** -/
theorem masked_pass {entry : RedactionPattern} (h : entry ∈ redactionPatterns) (text : Text) :
    Masked (fun _ _ => True) Cut [] [] text (pass entry text) := by
  rcases entry_cases h with ⟨credential, -, rfl⟩ | rfl | rfl | rfl
  · exact (masked_credential credential (replaced_pass (credential_consumes credential) text)
      []).mono
      (fun _ _ _ => trivial) fun _ _ _ _ hcut => hcut.cut
  · exact (masked_privateKey (replaced_pass privateKey_consumes text) []).mono
      (fun _ _ _ => trivial) fun _ _ _ _ hcut => hcut.cut
  · exact (masked_assignment (replaced_pass assignment_consumes text) (refused_nil text) []).mono
      (fun _ _ _ => trivial) fun _ _ _ _ hcut => hcut.cut
  · exact (masked_connection (replaced_pass connection_consumes text) (unmatched_nil text) []).mono
      (fun _ _ _ => trivial) fun _ _ _ _ hcut => hcut.cut

end Passes

end Newsdeck.Runner

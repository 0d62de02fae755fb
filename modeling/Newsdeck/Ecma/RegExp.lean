import Newsdeck.Ecma.Text

/-!
# Backtracking regular expressions

The matcher of the language specification: an expression is run against a cursor and a
*continuation*, the rest of the match, and tries its alternatives in priority order until the
continuation accepts.  Greedy and lazy repetition, capture groups, the anchors, word boundaries and
negative lookahead are covered; so is the leftmost search that `exec` and `test` perform.

An expression is a tree over an arbitrary alphabet.  The second half specialises it to code units
(`\s`, `\w`, `.`, the `i` flag).

* `run_units`, `run_many`, `run_lazy` — what a literal, a greedy and a lazy repetition of one class
  do to the continuation;
* `greedy_of_stop` — a greedy run whose continuation refuses to start inside the class is
  deterministic;
* `greedy_last` — a greedy run ends at the last place where its continuation accepts;
* `search_eq_skip`, `search_eq_here` — the leftmost search passes over a cursor where the expression
  fails and stops at the first where it succeeds.
-/

namespace Ecma

/-- A regular expression over `α`. -/
inductive Regex (α : Type) where
  | empty : Regex α
  | cls : (α → Bool) → Regex α
  | seq : Regex α → Regex α → Regex α
  | alt : Regex α → Regex α → Regex α
  | star : Bool → Regex α → Regex α
  | group : ℕ → Regex α → Regex α
  | bol : Regex α
  | eol : Regex α
  | boundary : (α → Bool) → Regex α
  | notAhead : Regex α → Regex α

/-- A position in the subject: what precedes it, nearest first, and what follows. -/
structure Cursor (α : Type) where
  before : List α
  after : List α
  deriving DecidableEq, Repr

/-- The groups captured so far, the latest first. -/
abbrev Captures (α : Type) := List (ℕ × List α)

/-- The rest of a match, run where the part before it stopped. -/
abbrev Cont (α : Type) := Cursor α → Captures α → Option (Cursor α × Captures α)

namespace Regex

variable {α : Type}

/-- Repetition.  The first argument bounds the number of further rounds, each of which must consume
something. -/
def starLoop (greedy : Bool) (body : Cont α → Cont α) (k : Cont α) : ℕ → Cont α
  | 0, pos, caps => k pos caps
  | rounds + 1, pos, caps =>
      let again : Cont α := fun pos' caps' =>
        if pos'.after.length < pos.after.length then starLoop greedy body k rounds pos' caps'
        else none
      if greedy then (body again pos caps).or (k pos caps)
      else (k pos caps).or (body again pos caps)

/-- Whether exactly one of the two neighbours of a cursor is a word unit. -/
def atBoundary (word : α → Bool) (pos : Cursor α) : Bool :=
  (pos.before.head?.any word) != (pos.after.head?.any word)

/-- Match the expression, then the continuation. -/
def run : Regex α → Cont α → Cont α
  | .empty, k, pos, caps => k pos caps
  | .cls p, k, pos, caps =>
      match pos.after with
      | [] => none
      | c :: t => if p c then k ⟨c :: pos.before, t⟩ caps else none
  | .seq r s, k, pos, caps => r.run (s.run k) pos caps
  | .alt r s, k, pos, caps => (r.run k pos caps).or (s.run k pos caps)
  | .star greedy r, k, pos, caps => starLoop greedy r.run k pos.after.length pos caps
  | .group n r, k, pos, caps =>
      r.run (fun pos' caps' =>
        k pos' ((n, pos.after.take (pos.after.length - pos'.after.length)) :: caps')) pos caps
  | .bol, k, pos, caps => if pos.before = [] then k pos caps else none
  | .eol, k, pos, caps => if pos.after = [] then k pos caps else none
  | .boundary word, k, pos, caps => if atBoundary word pos then k pos caps else none
  | .notAhead r, k, pos, caps =>
      match r.run (fun pos' caps' => some (pos', caps')) pos caps with
      | some _ => none
      | none => k pos caps

/-- The last continuation: the match is complete. -/
def done : Cont α := fun pos caps => some (pos, caps)

/-- Try every cursor from the given one on, leftmost first. -/
def search (r : Regex α) : List α → List α → Option (Cursor α × Captures α)
  | before, [] => r.run done ⟨before, []⟩ []
  | before, c :: t => (r.run done ⟨before, c :: t⟩ []).or (search r (c :: before) t)

/-- `regexp.exec(text)`: where the leftmost match ends, and its groups. -/
def exec (r : Regex α) (text : List α) : Option (Cursor α × Captures α) := r.search [] text

/-- `regexp.test(text)`. -/
def test (r : Regex α) (text : List α) : Bool := (r.exec text).isSome

/-- `regexp.exec(text)?.[n]`. -/
def capture (r : Regex α) (n : ℕ) (text : List α) : Option (List α) := do
  let (_, caps) ← r.exec text
  caps.lookup n

/-- The matches of `text.matchAll(regexp)`, each as its groups, for an expression that matches nothing
empty: the search goes on where the last match ended.  The first argument bounds their number. -/
def matchesFrom (r : Regex α) : ℕ → Cursor α → List (Captures α)
  | 0, _ => []
  | bound + 1, pos =>
      match r.search pos.before pos.after with
      | none => []
      | some (pos', caps) => caps :: matchesFrom r bound pos'

/-- `[...text.matchAll(regexp)].map((match) => match[n])`. -/
def captureAll (r : Regex α) (n : ℕ) (text : List α) : List (List α) :=
  (matchesFrom r text.length ⟨[], text⟩).filterMap fun caps => caps.lookup n

/-- The matches from a cursor on replaced, each by what its groups decide, for an expression that matches
nothing empty.  The first argument bounds the units that are left. -/
def replaceMatches (r : Regex α) (replacement : Captures α → List α) : ℕ → Cursor α → List α
  | 0, pos => pos.after
  | bound + 1, pos =>
      match r.run done pos [] with
      | some (pos', caps) => replacement caps ++ replaceMatches r replacement bound pos'
      | none =>
          match pos.after with
          | [] => []
          | c :: rest => c :: replaceMatches r replacement bound ⟨c :: pos.before, rest⟩

/-- `text.replace(regexp, replacement)`, for a `regexp` with the `g` flag. -/
def replace (r : Regex α) (replacement : Captures α → List α) (text : List α) : List α :=
  replaceMatches r replacement text.length ⟨[], text⟩

/-! ### Derived forms -/

/-- A literal. -/
def units [DecidableEq α] : List α → Regex α
  | [] => .empty
  | c :: w => .seq (.cls fun x => x = c) (units w)

def cat : List (Regex α) → Regex α
  | [] => .empty
  | [r] => r
  | r :: rs => .seq r (cat rs)

def oneOf : List (Regex α) → Regex α
  | [] => .cls fun _ => false
  | [r] => r
  | r :: rs => .alt r (oneOf rs)

/-- `r*`. -/
def many (r : Regex α) : Regex α := .star true r

/-- `r+`. -/
def many1 (r : Regex α) : Regex α := .seq r (.star true r)

/-- `r*?`. -/
def lazy (r : Regex α) : Regex α := .star false r

/-- `r?`. -/
def opt (r : Regex α) : Regex α := .alt r .empty

/-- `r{n}`. -/
def times : ℕ → Regex α → Regex α
  | 0, _ => .empty
  | n + 1, r => .seq r (times n r)

/-- `r{n,}`. -/
def atLeast (n : ℕ) (r : Regex α) : Regex α := .seq (times n r) (.star true r)

/-- `r{0,n}`, for an expression that matches nothing empty. -/
def upTo : ℕ → Regex α → Regex α
  | 0, _ => .empty
  | n + 1, r => .alt (.seq r (upTo n r)) .empty

/-! ### What each form does to its continuation -/

section Run

variable (k : Cont α) (b t : List α) (caps : Captures α)

@[simp] theorem run_empty (pos : Cursor α) : Regex.empty.run k pos caps = k pos caps := rfl

@[simp] theorem run_cls_nil (p : α → Bool) : (Regex.cls p).run k ⟨b, []⟩ caps = none := rfl

@[simp] theorem run_cls_cons (p : α → Bool) (c : α) :
    (Regex.cls p).run k ⟨b, c :: t⟩ caps = if p c then k ⟨c :: b, t⟩ caps else none := rfl

@[simp] theorem run_seq (r s : Regex α) (pos : Cursor α) :
    (Regex.seq r s).run k pos caps = r.run (s.run k) pos caps := rfl

@[simp] theorem run_alt (r s : Regex α) (pos : Cursor α) :
    (Regex.alt r s).run k pos caps = (r.run k pos caps).or (s.run k pos caps) := rfl

@[simp] theorem run_group (n : ℕ) (r : Regex α) (pos : Cursor α) :
    (Regex.group n r).run k pos caps = r.run (fun pos' caps' =>
      k pos' ((n, pos.after.take (pos.after.length - pos'.after.length)) :: caps')) pos caps := rfl

@[simp] theorem run_bol_nil : Regex.bol.run k ⟨[], t⟩ caps = k ⟨[], t⟩ caps := rfl

@[simp] theorem run_bol_cons (c : α) : Regex.bol.run k ⟨c :: b, t⟩ caps = none := rfl

@[simp] theorem run_eol_nil : Regex.eol.run k ⟨b, []⟩ caps = k ⟨b, []⟩ caps := rfl

@[simp] theorem run_eol_cons (c : α) : Regex.eol.run k ⟨b, c :: t⟩ caps = none := rfl

theorem run_units_append [DecidableEq α] (w : List α) :
    (units w).run k ⟨b, w ++ t⟩ caps = k ⟨w.reverse ++ b, t⟩ caps := by
  induction w generalizing b with
  | nil => rfl
  | cons c w ih =>
    simp only [units, run_seq, List.cons_append, run_cls_cons, decide_true, if_true, ih,
      List.reverse_cons, List.append_assoc, List.nil_append]

theorem run_units_of_not_prefix [DecidableEq α] {w : List α} (h : ¬ w <+: t) :
    (units w).run k ⟨b, t⟩ caps = none := by
  induction w generalizing b t with
  | nil => exact absurd (List.nil_prefix) h
  | cons c w ih =>
    cases t with
    | nil => rfl
    | cons d t =>
      simp only [units, run_seq, run_cls_cons]
      split
      · rename_i hd
        have hdc : d = c := by simpa using hd
        exact ih _ t fun hp => h (by rw [hdc]; exact List.prefix_cons_inj c |>.mpr hp)
      · rfl

end Run

/-- A greedy run of one class, longest first. -/
def takeGreedy (p : α → Bool) (k : Cont α) : List α → List α → Captures α →
    Option (Cursor α × Captures α)
  | b, [], caps => k ⟨b, []⟩ caps
  | b, c :: t, caps =>
      if p c then (takeGreedy p k (c :: b) t caps).or (k ⟨b, c :: t⟩ caps)
      else k ⟨b, c :: t⟩ caps

/-- A lazy run of one class, shortest first. -/
def takeLazy (p : α → Bool) (k : Cont α) : List α → List α → Captures α →
    Option (Cursor α × Captures α)
  | b, [], caps => k ⟨b, []⟩ caps
  | b, c :: t, caps =>
      (k ⟨b, c :: t⟩ caps).or (if p c then takeLazy p k (c :: b) t caps else none)

theorem starLoop_greedy (p : α → Bool) (k : Cont α) (n : ℕ) :
    ∀ (b t : List α) (caps : Captures α), t.length ≤ n →
      starLoop true (Regex.cls p).run k n ⟨b, t⟩ caps = takeGreedy p k b t caps := by
  induction n with
  | zero =>
    intro b t caps h
    have ht : t = [] := List.length_eq_zero_iff.mp (by omega)
    subst ht
    rfl
  | succ n ih =>
    intro b t caps h
    cases t with
    | nil => simp [starLoop, takeGreedy]
    | cons c t =>
      have hlen : t.length ≤ n := by simpa using h
      simp only [starLoop, if_true, run_cls_cons, takeGreedy, List.length_cons,
        Nat.lt_succ_self, ih (c :: b) t caps hlen]
      split <;> simp

theorem starLoop_lazy (p : α → Bool) (k : Cont α) (n : ℕ) :
    ∀ (b t : List α) (caps : Captures α), t.length ≤ n →
      starLoop false (Regex.cls p).run k n ⟨b, t⟩ caps = takeLazy p k b t caps := by
  induction n with
  | zero =>
    intro b t caps h
    have ht : t = [] := List.length_eq_zero_iff.mp (by omega)
    subst ht
    rfl
  | succ n ih =>
    intro b t caps h
    cases t with
    | nil => simp [starLoop, takeLazy]
    | cons c t =>
      have hlen : t.length ≤ n := by simpa using h
      simp only [starLoop, Bool.false_eq_true, if_false, run_cls_cons, takeLazy, List.length_cons,
        Nat.lt_succ_self, if_true, ih (c :: b) t caps hlen]

theorem run_many (p : α → Bool) (k : Cont α) (b t : List α) (caps : Captures α) :
    (many (.cls p)).run k ⟨b, t⟩ caps = takeGreedy p k b t caps :=
  starLoop_greedy p k t.length b t caps le_rfl

theorem run_lazy (p : α → Bool) (k : Cont α) (b t : List α) (caps : Captures α) :
    (lazy (.cls p)).run k ⟨b, t⟩ caps = takeLazy p k b t caps :=
  starLoop_lazy p k t.length b t caps le_rfl

/-- **A greedy run that cannot stop early.**  When the continuation fails wherever the class could
go on, the run takes everything and the continuation decides. -/
theorem greedy_of_stop (p : α → Bool) (k : Cont α) (caps : Captures α) (w : List α) :
    ∀ (b t : List α), (∀ c ∈ w, p c = true) → (∀ c ∈ t.head?, p c = false) →
      (∀ b' c t', p c = true → k ⟨b', c :: t'⟩ caps = none) →
      takeGreedy p k b (w ++ t) caps = k ⟨w.reverse ++ b, t⟩ caps := by
  induction w with
  | nil =>
    intro b t _ ht _
    cases t with
    | nil => rfl
    | cons c t =>
      have hc : p c = false := ht c (by simp)
      simp [takeGreedy, hc]
  | cons c w ih =>
    intro b t hw ht hk
    have hc : p c = true := hw c (by simp)
    rw [List.cons_append, takeGreedy, if_pos hc, hk b c (w ++ t) hc, Option.or_none,
      ih (c :: b) t (fun d hd => hw d (by simp [hd])) ht hk]
    simp

/-- A greedy run fails when the continuation fails at every cursor it could stop at. -/
theorem greedy_none (p : α → Bool) (k : Cont α) (caps : Captures α) :
    ∀ (t b : List α), (∀ u v, t = u ++ v → (∀ c ∈ u, p c = true) →
      k ⟨u.reverse ++ b, v⟩ caps = none) → takeGreedy p k b t caps = none := by
  intro t
  induction t with
  | nil => intro b h; exact h [] [] rfl (by simp)
  | cons c t ih =>
    intro b h
    have here : k ⟨b, c :: t⟩ caps = none := h [] (c :: t) rfl (by simp)
    unfold takeGreedy
    split
    · rename_i hc
      have next : takeGreedy p k (c :: b) t caps = none := by
        apply ih
        intro u v huv hu
        have := h (c :: u) v (by rw [huv]; rfl) (by simpa [hc] using hu)
        simpa using this
      rw [next, here]
      rfl
    · exact here

/-- A greedy run ends at the last place where the continuation accepts. -/
theorem greedy_last (p : α → Bool) {k : Cont α} {caps : Captures α} {r : Cursor α × Captures α}
    {t : List α} (w : List α) :
    ∀ b : List α, (∀ c ∈ w, p c = true) → k ⟨w.reverse ++ b, t⟩ caps = some r →
      (∀ u v, t = u ++ v → u ≠ [] → (∀ c ∈ u, p c = true) →
        k ⟨u.reverse ++ (w.reverse ++ b), v⟩ caps = none) →
      takeGreedy p k b (w ++ t) caps = some r := by
  induction w with
  | nil =>
    intro b _ hk hlater
    cases t with
    | nil => exact hk
    | cons c t =>
      have hnone : p c = true → takeGreedy p k (c :: b) t caps = none := by
        intro hc
        apply greedy_none
        intro u v huv hu
        have := hlater (c :: u) v (by rw [huv]; rfl) (by simp) (by simpa [hc] using hu)
        simpa using this
      rw [List.nil_append, takeGreedy]
      split
      · rename_i hc
        rw [hnone hc]
        exact hk
      · exact hk
  | cons c w ih =>
    intro b hw hk hlater
    have hrest := ih (c :: b) (fun d hd => hw d (by simp [hd])) (by simpa using hk)
      (fun u v huv hne hu => by simpa using hlater u v huv hne hu)
    rw [List.cons_append, takeGreedy, if_pos (hw c (by simp)), hrest]
    rfl

/-- A lazy run passes over the units at which the continuation fails. -/
theorem lazy_skip (p : α → Bool) (k : Cont α) (caps : Captures α) (w : List α) :
    ∀ (b t : List α), (∀ c ∈ w, p c = true) →
      (∀ u v, w = u ++ v → v ≠ [] → k ⟨u.reverse ++ b, v ++ t⟩ caps = none) →
      takeLazy p k b (w ++ t) caps = takeLazy p k (w.reverse ++ b) t caps := by
  induction w with
  | nil => intro b t _ _; rfl
  | cons c w ih =>
    intro b t hw hk
    have hc : p c = true := hw c (by simp)
    have here : k ⟨b, c :: (w ++ t)⟩ caps = none := hk [] (c :: w) rfl (by simp)
    rw [List.cons_append, takeLazy, here, if_pos hc, Option.none_or,
      ih (c :: b) t (fun d hd => hw d (by simp [hd]))]
    · simp
    · intro u v huv hv
      have := hk (c :: u) v (by rw [huv]; rfl) hv
      simpa using this

/-- A lazy run stops as soon as the continuation accepts. -/
theorem lazy_here (p : α → Bool) {k : Cont α} {b t : List α} {caps : Captures α}
    {r : Cursor α × Captures α} (h : k ⟨b, t⟩ caps = some r) : takeLazy p k b t caps = some r := by
  cases t <;> simp [takeLazy, h]

/-- A bounded run of one class ends where the continuation accepts. -/
theorem upTo_eq_some {p : α → Bool} {k : Cont α} {caps : Captures α} {r : Cursor α × Captures α}
    (n : ℕ) :
    ∀ b t : List α, (upTo n (.cls p)).run k ⟨b, t⟩ caps = some r →
      ∃ u v, t = u ++ v ∧ u.length ≤ n ∧ k ⟨u.reverse ++ b, v⟩ caps = some r := by
  induction n with
  | zero =>
    intro b t h
    exact ⟨[], t, rfl, le_rfl, h⟩
  | succ n ih =>
    intro b t h
    rw [upTo, run_alt, Option.or_eq_some_iff] at h
    rcases h with h | ⟨-, h⟩
    · cases t with
      | nil => simp at h
      | cons c t =>
        rw [run_seq, run_cls_cons] at h
        split at h
        · obtain ⟨u, v, rfl, hu, hk⟩ := ih (c :: b) t h
          refine ⟨c :: u, v, rfl, Nat.succ_le_succ hu, ?_⟩
          rwa [List.reverse_cons, List.append_assoc]
        · cases h
    · exact ⟨[], t, rfl, Nat.zero_le _, h⟩

/-- A bounded run of one class fails where the continuation fails wherever it could stop. -/
theorem upTo_ne_none {p : α → Bool} {k : Cont α} {caps : Captures α} (n : ℕ) :
    ∀ (u b v : List α), u.length ≤ n → (∀ c ∈ u, p c = true) →
      k ⟨u.reverse ++ b, v⟩ caps ≠ none → (upTo n (.cls p)).run k ⟨b, u ++ v⟩ caps ≠ none := by
  induction n with
  | zero =>
    intro u b v hu _ hk
    obtain rfl := List.length_eq_zero_iff.mp (Nat.le_zero.mp hu)
    exact hk
  | succ n ih =>
    intro u b v hu hp hk
    rw [upTo, run_alt, Ne, Option.or_eq_none_iff, not_and_or]
    cases u with
    | nil => exact .inr hk
    | cons c u =>
      refine .inl ?_
      rw [List.cons_append, run_seq, run_cls_cons, if_pos (hp c (by simp))]
      refine ih u (c :: b) v (Nat.le_of_succ_le_succ hu) (fun d hd => hp d (by simp [hd])) ?_
      rwa [List.reverse_cons, List.append_assoc] at hk

/-! ### The leftmost search -/

theorem search_eq_here {r : Regex α} {b t : List α} {x : Cursor α × Captures α}
    (h : r.run done ⟨b, t⟩ [] = some x) : r.search b t = some x := by
  cases t <;> simp [search, h]

theorem search_eq_skip (r : Regex α) (w : List α) :
    ∀ (b t : List α), (∀ u v, w = u ++ v → v ≠ [] → r.run done ⟨u.reverse ++ b, v ++ t⟩ [] = none) →
      r.search b (w ++ t) = r.search (w.reverse ++ b) t := by
  induction w with
  | nil => intro b t _; rfl
  | cons c w ih =>
    intro b t h
    have here : r.run done ⟨b, c :: (w ++ t)⟩ [] = none := h [] (c :: w) rfl (by simp)
    rw [List.cons_append, search, here, Option.none_or, ih (c :: b) t]
    · simp
    · intro u v huv hv
      have := h (c :: u) v (by rw [huv]; rfl) hv
      simpa using this

/-- When the expression captures the same wherever it matches up to some cursor, and it does match
there, the search captures that. -/
theorem exec_captures {r : Regex α} {a d : List α} {caps : Captures α}
    (ha : ∀ u v, a = u ++ v → r.run done ⟨u.reverse, v ++ d⟩ [] = none ∨
      ∃ pos, r.run done ⟨u.reverse, v ++ d⟩ [] = some (pos, caps))
    (hd : ∃ pos, r.run done ⟨a.reverse, d⟩ [] = some (pos, caps)) :
    ∃ pos, r.exec (a ++ d) = some (pos, caps) := by
  have key : ∀ (v u : List α), a = u ++ v →
      ∃ pos, r.search u.reverse (v ++ d) = some (pos, caps) := by
    intro v
    induction v with
    | nil =>
      intro u hu
      rw [List.append_nil] at hu
      subst hu
      obtain ⟨pos, hpos⟩ := hd
      exact ⟨pos, search_eq_here hpos⟩
    | cons c v ih =>
      intro u hu
      rcases ha u (c :: v) hu with hnone | ⟨pos, hpos⟩
      · obtain ⟨pos, hpos⟩ := ih (u ++ [c]) (by simp [hu])
        refine ⟨pos, ?_⟩
        rw [List.cons_append] at hnone
        rw [List.cons_append, search, hnone, Option.none_or]
        simpa using hpos
      · exact ⟨pos, search_eq_here hpos⟩
  exact key a [] rfl

theorem search_none (r : Regex α) :
    ∀ (t b : List α), (∀ u v, t = u ++ v → r.run done ⟨u.reverse ++ b, v⟩ [] = none) →
      r.search b t = none := by
  intro t
  induction t with
  | nil => intro b h; exact h [] [] rfl
  | cons c t ih =>
    intro b h
    have here : r.run done ⟨b, c :: t⟩ [] = none := h [] (c :: t) rfl
    rw [search, here, Option.none_or]
    apply ih
    intro u v huv
    have := h (c :: u) v (by rw [huv]; rfl)
    simpa using this

/-- An expression anchored at the start is tried once. -/
theorem exec_bol (r : Regex α) (t : List α) :
    (Regex.seq .bol r).exec t = r.run done ⟨[], t⟩ [] := by
  cases t with
  | nil => rfl
  | cons c t =>
    have rest : (Regex.seq .bol r).search [c] t = none := by
      apply search_none
      intro u v _
      simp only [run_seq]
      cases h : u.reverse ++ [c] with
      | nil => simp at h
      | cons d b => rfl
    rw [exec, search, rest, Option.or_none]
    rfl

end Regex

/-! ### Classes of code units -/

/-- `\s`. -/
def isSpace (c : ℕ) : Bool :=
  (9 ≤ c && c ≤ 13) || c = 32 || c = 160 || c = 5760 || (8192 ≤ c && c ≤ 8202) || c = 8232 ||
    c = 8233 || c = 8239 || c = 8287 || c = 12288 || c = 65279

def isDigit (c : ℕ) : Bool := 48 ≤ c && c ≤ 57

def isUpper (c : ℕ) : Bool := 65 ≤ c && c ≤ 90

def isLower (c : ℕ) : Bool := 97 ≤ c && c ≤ 122

def isLetter (c : ℕ) : Bool := isUpper c || isLower c

/-- `\w`. -/
def isWord (c : ℕ) : Bool := isLetter c || isDigit c || c = 95

/-- What `.` does not match. -/
def isLineTerminator (c : ℕ) : Bool := c = 10 || c = 13 || c = 8232 || c = 8233

/-- Exchange the two cases of an ASCII letter. -/
def swapCase (c : ℕ) : ℕ :=
  if isUpper c then c + 32 else if isLower c then c - 32 else c

namespace Regex

/-- A literal of the source. -/
def str (s : String) : Regex ℕ := units (lit s)

/-- A class given by its members. -/
def chars (s : String) : Regex ℕ := .cls fun c => c ∈ lit s

/-- The complement of a class given by its members. -/
def notChars (s : String) : Regex ℕ := .cls fun c => c ∉ lit s

/-- `\s`, `\d`, `.` and `[\s\S]`. -/
def space : Regex ℕ := .cls isSpace
def digit : Regex ℕ := .cls isDigit
def dot : Regex ℕ := .cls fun c => !isLineTerminator c
def any : Regex ℕ := .cls fun _ => true

/-- `\b`. -/
def wordBoundary : Regex ℕ := .boundary isWord

/-- The `i` flag, for an expression whose letters are ASCII. -/
def ignoreCase : Regex ℕ → Regex ℕ
  | .empty => .empty
  | .cls p => .cls fun c => p c || p (swapCase c)
  | .seq r s => .seq r.ignoreCase s.ignoreCase
  | .alt r s => .alt r.ignoreCase s.ignoreCase
  | .star g r => .star g r.ignoreCase
  | .group n r => .group n r.ignoreCase
  | .bol => .bol
  | .eol => .eol
  | .boundary word => .boundary word
  | .notAhead r => .notAhead r.ignoreCase

end Regex

end Ecma

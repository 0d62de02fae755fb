import Newsdeck.Ecma.Derivations

/-!
# Replacing every match

What `text.replace(regexp, replacement)` does, as a relation between the text and the result.

* `takes_advance` — an expression moves a cursor forward;
* `EachMatch` — what holds of every match that is replaced;
* `Replaced` — the units in front of which nothing matches, and the matches with their replacements;
* `replaced_replace` — the result of `replace` is such;
* `replace_eq_self` — matches that are replaced by themselves leave the text as it is;
* `mem_captureAll_iff` — what `matchAll` finds, for an expression of which no match begins inside
  another;
* `run_seq_eq_some`, `run_star_done` — reading back what the matcher took, and where its last greedy
  repetition stops.
-/

namespace Ecma

namespace Regex

variable {α : Type}

/-- An expression moves a cursor forward, over what it takes. -/
theorem takes_advance (r : Regex α) : ∀ {s s' : Cursor α × Captures α}, r.Takes s s' →
    ∃ u, s.1.after = u ++ s'.1.after ∧ s'.1.before = u.reverse ++ s.1.before := by
  have hsame : ∀ s s' : Cursor α × Captures α, s' = s →
      ∃ u, s.1.after = u ++ s'.1.after ∧ s'.1.before = u.reverse ++ s.1.before := by
    intro s s' heq
    rw [heq]
    exact ⟨[], rfl, rfl⟩
  induction r with
  | empty => exact fun h => hsame _ _ h
  | cls p =>
    rintro s _ ⟨c, t, hafter, -, rfl⟩
    exact ⟨[c], hafter, rfl⟩
  | seq r r' ih ih' =>
    rintro s s' ⟨mid, hr, hr'⟩
    obtain ⟨u, hu, hub⟩ := ih hr
    obtain ⟨v, hv, hvb⟩ := ih' hr'
    exact ⟨u ++ v, by rw [hu, hv, List.append_assoc], by rw [hvb, hub]; simp⟩
  | alt r r' ih ih' => exact fun h => h.elim (fun h => ih h) fun h => ih' h
  | star greedy r ih =>
    intro s s' h
    refine Relation.ReflTransGen.head_induction_on h (hsame s' s' rfl) ?_
    rintro s mid ⟨hr, -⟩ - ⟨v, hv, hvb⟩
    obtain ⟨u, hu, hub⟩ := ih hr
    exact ⟨u ++ v, by rw [hu, hv, List.append_assoc], by rw [hvb, hub]; simp⟩
  | group n r ih =>
    intro s s' h
    obtain ⟨mid, hr, rfl⟩ := takes_group.mp h
    obtain ⟨u, hu⟩ := ih hr
    exact ⟨u, hu⟩
  | bol => exact fun h => hsame _ _ h.2
  | eol => exact fun h => hsame _ _ h.2
  | boundary word => exact fun h => hsame _ _ h.2
  | notAhead r ih => exact fun h => hsame _ _ h.2

/-! ### The matches that are replaced -/

/-- What holds of every match that is replaced: of what stands in front of it, of what it takes, of
its groups and of what follows. -/
def EachMatch (r : Regex α) (P : List α → List α → Captures α → List α → Prop) : ℕ → Cursor α → Prop
  | 0, _ => True
  | bound + 1, pos =>
      match r.run done pos [] with
      | some (pos', caps) =>
          P pos.before (pos.after.take (pos.after.length - pos'.after.length)) caps pos'.after ∧
            EachMatch r P bound pos'
      | none =>
          match pos.after with
          | [] => True
          | c :: rest => EachMatch r P bound ⟨c :: pos.before, rest⟩

instance decidableEachMatch (r : Regex α) (P : List α → List α → Captures α → List α → Prop)
    [∀ b m caps x, Decidable (P b m caps x)] :
    ∀ (bound : ℕ) (pos : Cursor α), Decidable (EachMatch r P bound pos)
  | 0, _ => isTrue trivial
  | bound + 1, pos =>
      match hrun : r.run done pos [] with
      | some (pos', caps) =>
          have := decidableEachMatch r P bound pos'
          decidable_of_iff
            (P pos.before (pos.after.take (pos.after.length - pos'.after.length)) caps
            pos'.after ∧ EachMatch r P bound pos') (by rw [EachMatch, hrun])
      | none =>
          match hafter : pos.after with
          | [] => isTrue (by rw [EachMatch, hrun, hafter]; trivial)
          | c :: rest =>
              have := decidableEachMatch r P bound ⟨c :: pos.before, rest⟩
              decidable_of_iff (EachMatch r P bound ⟨c :: pos.before, rest⟩)
                (by rw [EachMatch, hrun, hafter])

/-- The expression matches nothing empty. -/
def Consumes (r : Regex α) : Prop :=
  ∀ (b t : List α) (s' : Cursor α × Captures α), r.Takes (⟨b, t⟩, []) s' →
    s'.1.after.length < t.length

/-- A text behind what was read of it, and the result: what matches nothing is copied, and each
match, of which something holds, is replaced. -/
inductive Replaced (r : Regex α) (replacement : Captures α → List α)
    (P : List α → List α → Captures α → List α → Prop) : List α → List α → List α → Prop
  | nil (b : List α) : Replaced r replacement P b [] []
  | skip {b x y : List α} {c : α} (h : r.run done ⟨b, c :: x⟩ [] = none)
      (rest : Replaced r replacement P (c :: b) x y) : Replaced r replacement P b (c :: x) (c :: y)
  | found {b m x y : List α} {caps : Captures α} (hne : m ≠ [])
      (h : r.run done ⟨b, m ++ x⟩ [] = some (⟨m.reverse ++ b, x⟩, caps)) (hP : P b m caps x)
      (rest : Replaced r replacement P (m.reverse ++ b) x y) :
      Replaced r replacement P b (m ++ x) (replacement caps ++ y)

variable {r : Regex α} {replacement : Captures α → List α}
  {P Q : List α → List α → Captures α → List α → Prop} {b x y : List α}

/-- A match that is found, with what it takes. -/
theorem run_done_split {pos : Cursor α} {caps : Captures α} (hr : r.Consumes) {t : List α}
    (h : r.run done ⟨b, t⟩ [] = some (pos, caps)) :
    ∃ m x, t = m ++ x ∧ m ≠ [] ∧ pos = ⟨m.reverse ++ b, x⟩ := by
  have htakes := takes_of_run_done h
  obtain ⟨u, hafter, hbefore⟩ := takes_advance r htakes
  refine ⟨u, pos.after, hafter, ?_, by rw [← hbefore]⟩
  rintro rfl
  have hshort : pos.after.length < t.length := hr _ _ _ htakes
  rw [show t = [] ++ pos.after from hafter] at hshort
  exact absurd hshort (Nat.lt_irrefl _)

/-- No match begins inside another. -/
def Separate (r : Regex α) : Prop :=
  ∀ (b u v x : List α) (caps : Captures α) (s' : Cursor α × Captures α), u ≠ [] → v ≠ [] →
    r.Takes (⟨b, u ++ (v ++ x)⟩, []) (⟨(u ++ v).reverse ++ b, x⟩, caps) →
      ¬r.Takes (⟨u.reverse ++ b, v ++ x⟩, []) s'

/-- The matches one after the other are those from every cursor. -/
theorem mem_matchesFrom_iff {caps : Captures α} (hr : r.Consumes) (hapart : r.Separate)
    (bound : ℕ) :
    ∀ (b t : List α), t.length ≤ bound → (caps ∈ matchesFrom r bound ⟨b, t⟩ ↔
      ∃ u v pos, t = u ++ v ∧ r.run done ⟨u.reverse ++ b, v⟩ [] = some (pos, caps)) := by
  induction bound with
  | zero =>
    intro b t ht
    obtain rfl := List.length_eq_zero_iff.mp (Nat.le_zero.mp ht)
    refine iff_of_false List.not_mem_nil ?_
    rintro ⟨u, v, pos, hsplit, hrun⟩
    obtain ⟨m, x, rfl, hm, -⟩ := run_done_split hr hrun
    simp [hm] at hsplit
  | succ bound ih =>
    intro b t ht
    rw [matchesFrom]
    cases hsearch : r.search b t with
    | none =>
      refine iff_of_false List.not_mem_nil ?_
      rintro ⟨u, v, pos, rfl, hrun⟩
      exact search_ne_none u (takes_of_run_done hrun) hsearch
    | some found =>
      obtain ⟨pos', caps'⟩ := found
      obtain ⟨u, v, rfl, hrun, hfirst⟩ := search_spec t hsearch
      obtain ⟨m, x, rfl, hm, rfl⟩ := run_done_split hr hrun
      have hshort : x.length ≤ bound := by
        have hpos := List.length_pos_of_ne_nil hm
        simp only [List.length_append] at ht
        omega
      rw [List.mem_cons, ih _ _ hshort]
      constructor
      · rintro (rfl | ⟨u', v', pos, rfl, hlater⟩)
        · exact ⟨u, m ++ x, _, rfl, hrun⟩
        · exact ⟨u ++ m ++ u', v', pos, by simp, by simpa using hlater⟩
      · rintro ⟨u', v', pos, hsplit, hrun'⟩
        -- Where the other match begins: before this one, with it, inside it or behind it.
        rcases List.append_eq_append_iff.mp hsplit with ⟨w, rfl, hrest⟩ | ⟨w, rfl, hrest⟩
        · rcases List.append_eq_append_iff.mp hrest with ⟨w', rfl, rfl⟩ | ⟨w', rfl, rfl⟩
          · exact .inr ⟨w', v', pos, rfl, by simpa using hrun'⟩
          · by_cases hw : w = []
            · subst hw
              have hsame := hrun.symm.trans (by simpa using hrun')
              exact .inl (Prod.mk.inj (Option.some.inj hsame)).2.symm
            · by_cases hw' : w' = []
              · subst hw'
                exact .inr ⟨[], x, pos, rfl, by simpa using hrun'⟩
              · have htakes := takes_of_run_done hrun
                rw [List.append_assoc] at htakes
                rw [List.reverse_append, List.append_assoc] at hrun'
                exact absurd (takes_of_run_done hrun') (hapart _ _ _ _ _ _ hw hw' htakes)
        · by_cases hw : w = []
          · subst hw
            rw [hrest, List.nil_append] at hrun'
            have hsame := hrun.symm.trans (by simpa using hrun')
            exact .inl (Prod.mk.inj (Option.some.inj hsame)).2.symm
          · have hlt : u'.length < (u' ++ w).length := by
              have hpos := List.length_pos_of_ne_nil hw
              simp only [List.length_append]
              omega
            exact absurd (takes_of_run_done hrun') (hfirst _ _ hsplit hlt _)

theorem mem_captureAll_iff {n : ℕ} {t w : List α} (hr : r.Consumes) (hapart : r.Separate) :
    w ∈ r.captureAll n t ↔ ∃ u v pos caps, t = u ++ v ∧
      r.run done ⟨u.reverse, v⟩ [] = some (pos, caps) ∧ caps.lookup n = some w := by
  unfold captureAll
  rw [List.mem_filterMap]
  simp only [mem_matchesFrom_iff hr hapart _ _ _ le_rfl, List.append_nil]
  constructor
  · rintro ⟨caps, ⟨u, v, pos, hsplit, hrun⟩, hlookup⟩
    exact ⟨u, v, pos, caps, hsplit, hrun, hlookup⟩
  · rintro ⟨u, v, pos, caps, hsplit, hrun, hlookup⟩
    exact ⟨caps, ⟨u, v, pos, hsplit, hrun⟩, hlookup⟩

theorem replaced_replaceMatches (hr : r.Consumes) (bound : ℕ) :
    ∀ (b x : List α), x.length ≤ bound → EachMatch r P bound ⟨b, x⟩ →
      Replaced r replacement P b x (replaceMatches r replacement bound ⟨b, x⟩) := by
  induction bound with
  | zero =>
    intro b x hx _
    obtain rfl := List.length_eq_zero_iff.mp (Nat.le_zero.mp hx)
    exact .nil b
  | succ bound ih =>
    intro b x hx heach
    rw [EachMatch] at heach
    rw [replaceMatches]
    cases hrun : r.run done ⟨b, x⟩ [] with
    | none =>
      rw [hrun] at heach
      cases x with
      | nil => exact .nil b
      | cons c x => exact .skip hrun (ih _ _ (Nat.le_of_succ_le_succ hx) heach)
    | some found =>
      obtain ⟨pos, caps⟩ := found
      rw [hrun] at heach
      obtain ⟨m, rest, rfl, hne, rfl⟩ := run_done_split hr hrun
      have hshort : rest.length ≤ bound := by
        have hpos := List.length_pos_iff.mpr hne
        rw [List.length_append] at hx
        omega
      obtain ⟨hP, hrest⟩ := heach
      rw [take_consumed] at hP
      exact .found hne hrun hP (ih _ _ hshort hrest)

/-- The result of `replace`. -/
theorem replaced_replace (hr : r.Consumes) (h : EachMatch r P x.length ⟨[], x⟩) :
    Replaced r replacement P [] x (r.replace replacement x) :=
  replaced_replaceMatches hr x.length [] x le_rfl h

theorem eachMatch_of_forall {bound : ℕ} {pos : Cursor α}
    (h : ∀ b t pos' caps, r.run done ⟨b, t⟩ [] = some (pos', caps) →
      P b (t.take (t.length - pos'.after.length)) caps pos'.after) : EachMatch r P bound pos := by
  induction bound generalizing pos with
  | zero => trivial
  | succ bound ih =>
    rw [EachMatch]
    split
    · rename_i hrun
      exact ⟨h _ _ _ _ hrun, ih⟩
    · split
      · trivial
      · exact ih

/-- What holds wherever the expression matches a text holds of every match that is replaced. -/
theorem eachMatch_of_split {x : List α} {bound : ℕ} {pre suf : List α} (hx : x = pre ++ suf)
    (h : ∀ pre m post caps, x = pre ++ (m ++ post) →
      r.run done ⟨pre.reverse, m ++ post⟩ [] = some (⟨m.reverse ++ pre.reverse, post⟩, caps) →
      P pre.reverse m caps post) : EachMatch r P bound ⟨pre.reverse, suf⟩ := by
  induction bound generalizing pre suf with
  | zero => trivial
  | succ bound ih =>
    rw [EachMatch]
    split
    · rename_i pos caps hrun
      obtain ⟨m, hsuf, hbefore⟩ := takes_advance r (takes_of_run_done hrun)
      have hpos : pos = ⟨m.reverse ++ pre.reverse, pos.after⟩ := by rw [← hbefore]
      obtain rfl : suf = m ++ pos.after := hsuf
      refine ⟨?_, ?_⟩
      · rw [take_consumed]
        refine h pre m pos.after caps hx ?_
        rw [← hpos]
        exact hrun
      · have hrest : EachMatch r P bound ⟨(pre ++ m).reverse, pos.after⟩ :=
          ih (by rw [hx, List.append_assoc])
        rwa [List.reverse_append, ← hpos] at hrest
    · cases suf with
      | nil => trivial
      | cons c suf =>
        have hrest : EachMatch r P bound ⟨(pre ++ [c]).reverse, suf⟩ :=
          ih (by rw [hx, List.append_assoc, List.singleton_append])
        rwa [List.reverse_append] at hrest

/-- What is replaced satisfies the condition; the derivation shows it to the recursion. -/
theorem Replaced.eachMatch (hr : r.Consumes) (h : Replaced r replacement P b x y) :
    ∀ bound, x.length ≤ bound → EachMatch r P bound ⟨b, x⟩ := by
  induction h with
  | nil b =>
    intro bound _
    cases bound with
    | zero => trivial
    | succ bound =>
      have hnone : r.run done ⟨b, []⟩ [] = none :=
        run_done_eq_none_iff.mpr fun s' htakes => absurd (hr _ _ _ htakes) (Nat.not_lt_zero _)
      rw [EachMatch, hnone]
      trivial
  | skip h _ ih =>
    intro bound hbound
    cases bound with
    | zero => trivial
    | succ bound =>
      rw [EachMatch, h]
      exact ih bound (Nat.le_of_succ_le_succ hbound)
  | @found b m x y caps hne h hP _ ih =>
    intro bound hbound
    cases bound with
    | zero => trivial
    | succ bound =>
      rw [EachMatch, h]
      refine ⟨by rw [take_consumed]; exact hP, ih bound ?_⟩
      have hpos := List.length_pos_iff.mpr hne
      rw [List.length_append] at hbound
      omega

theorem Replaced.mono (hPQ : ∀ b m caps x, P b m caps x → Q b m caps x)
    (h : Replaced r replacement P b x y) : Replaced r replacement Q b x y := by
  induction h with
  | nil b => exact .nil b
  | skip h _ ih => exact .skip h ih
  | found hne h hP _ ih => exact .found hne h (hPQ _ _ _ _ hP) ih

/-- Matches that are replaced by themselves leave the text as it is. -/
theorem Replaced.eq_self (hself : ∀ b m caps x, P b m caps x → replacement caps = m)
    (h : Replaced r replacement P b x y) : y = x := by
  induction h with
  | nil b => rfl
  | skip _ _ ih => rw [ih]
  | found _ _ hP _ ih => rw [ih, hself _ _ _ _ hP]

theorem replace_eq_self (hr : r.Consumes)
    (h : EachMatch r (fun _ m caps _ => replacement caps = m) x.length ⟨[], x⟩) :
    r.replace replacement x = x :=
  (replaced_replace hr h).eq_self fun _ _ _ _ hself => hself

theorem replace_eq_self_of_split (hr : r.Consumes)
    (h : ∀ pre m post caps, x = pre ++ (m ++ post) →
      r.run done ⟨pre.reverse, m ++ post⟩ [] = some (⟨m.reverse ++ pre.reverse, post⟩, caps) →
      replacement caps = m) : r.replace replacement x = x := by
  refine replace_eq_self hr ?_
  exact eachMatch_of_split (P := fun _ m caps _ => replacement caps = m) (List.nil_append x).symm h

/-! ### What the matcher took -/

/-- The first part of a match, and the rest of it as the matcher goes on. -/
theorem run_seq_eq_some {r' : Regex α} {k : Cont α} {s : Cursor α × Captures α}
    {found : Cursor α × Captures α} (h : (Regex.seq r r').run k s.1 s.2 = some found) :
    ∃ s', r.Takes s s' ∧ r'.run k s'.1 s'.2 = some found := run_eq_some h

/-- In front of what never fails a greedy repetition takes all it can. -/
theorem takeGreedy_of_total {p : α → Bool} {k : Cont α} {caps : Captures α}
    (hk : ∀ pos, k pos caps ≠ none) {t : List α} :
    takeGreedy p k b t caps = k ⟨(t.takeWhile p).reverse ++ b, t.dropWhile p⟩ caps := by
  induction t generalizing b with
  | nil => rfl
  | cons c t ih =>
    rw [takeGreedy]
    by_cases hc : p c = true
    · obtain ⟨found, hfound⟩ := Option.ne_none_iff_exists'.mp
        (hk ⟨(t.takeWhile p).reverse ++ c :: b, t.dropWhile p⟩)
      rw [if_pos hc, ih, hfound, Option.some_or, List.takeWhile_cons_of_pos hc,
        List.dropWhile_cons_of_pos hc, List.reverse_cons, List.append_assoc]
      exact hfound.symm
    · rw [if_neg hc, List.takeWhile_cons_of_neg hc, List.dropWhile_cons_of_neg hc]
      rfl

/-- A greedy repetition at the end takes all it can. -/
theorem run_star_done {p : α → Bool} {t : List α} {caps : Captures α} :
    (Regex.star true (.cls p)).run done ⟨b, t⟩ caps =
      some (⟨(t.takeWhile p).reverse ++ b, t.dropWhile p⟩, caps) := by
  exact (run_many p done b t caps).trans (takeGreedy_of_total fun _ => Option.some_ne_none _)

section Forms

variable {t : List α} {caps : Captures α} {s s' : Cursor α × Captures α}

theorem takes_times {p : α → Bool} {n : ℕ} : (times n (.cls p)).Takes (⟨b, t⟩, caps) s' ↔
    ∃ u v, t = u ++ v ∧ u.length = n ∧ (∀ c ∈ u, p c = true) ∧
      s' = (⟨u.reverse ++ b, v⟩, caps) := by
  induction n generalizing b t with
  | zero =>
    constructor
    · intro h
      exact ⟨[], t, rfl, rfl, by simp, h⟩
    · rintro ⟨u, v, rfl, hlength, -, rfl⟩
      rw [List.length_eq_zero_iff.mp hlength]
      rfl
  | succ n ih =>
    constructor
    · rintro ⟨_, ⟨c, _, rfl, hc, rfl⟩, hrest⟩
      obtain ⟨u, v, rfl, rfl, hu, rfl⟩ := ih.mp hrest
      exact ⟨c :: u, v, rfl, rfl, by simpa [hc] using hu, by simp⟩
    · rintro ⟨_ | ⟨c, u⟩, v, rfl, hlength, hu, rfl⟩
      · cases hlength
      · refine ⟨_, ⟨c, u ++ v, rfl, hu c (by simp), rfl⟩, ih.mpr ⟨u, v, rfl, ?_, ?_, by simp⟩⟩
        · exact Nat.succ.inj hlength
        · exact fun d hd => hu d (by simp [hd])

theorem takes_atLeast {p : α → Bool} {n : ℕ} : (atLeast n (.cls p)).Takes (⟨b, t⟩, caps) s' ↔
    ∃ u v, t = u ++ v ∧ n ≤ u.length ∧ (∀ c ∈ u, p c = true) ∧
      s' = (⟨u.reverse ++ b, v⟩, caps) := by
  constructor
  · rintro ⟨_, hfirst, hrest⟩
    obtain ⟨u, _, rfl, hlength, hu, rfl⟩ := takes_times.mp hfirst
    obtain ⟨w, v, rfl, hw, rfl⟩ := takes_star_cls.mp hrest
    refine ⟨u ++ w, v, by simp, ?_, ?_, by simp⟩
    · rw [List.length_append, hlength]
      exact Nat.le_add_right _ _
    · exact fun c hc => (List.mem_append.mp hc).elim (hu c) (hw c)
  · rintro ⟨u, v, rfl, hlength, hu, rfl⟩
    refine ⟨_, takes_times.mpr ⟨u.take n, u.drop n ++ v, ?_, ?_, ?_, rfl⟩,
      takes_star_cls.mpr ⟨u.drop n, v, rfl, ?_, ?_⟩⟩
    · rw [← List.append_assoc, List.take_append_drop]
    · rw [List.length_take, Nat.min_eq_left hlength]
    · exact fun c hc => hu c (List.mem_of_mem_take hc)
    · exact fun c hc => hu c (List.mem_of_mem_drop hc)
    · rw [← List.append_assoc, ← List.reverse_append, List.take_append_drop]

/-- What a greedy repetition at the end of a match leaves is not of its class. -/
theorem head_of_run_atLeast {p : α → Bool} {n : ℕ} {found : Cursor α × Captures α}
    (h : (atLeast n (.cls p)).run done s.1 s.2 = some found) :
      ∀ c ∈ found.1.after.head?, p c = false := by
  obtain ⟨⟨⟨b, t⟩, caps⟩, -, hrest⟩ := run_seq_eq_some h
  have hstop : some (⟨(t.takeWhile p).reverse ++ b, t.dropWhile p⟩, caps) = some found :=
    run_star_done.symm.trans hrest
  intro c hc
  rw [← Option.some.inj hstop] at hc
  have hnot := List.head?_dropWhile_not p t
  rw [Option.mem_def.mp hc] at hnot
  simpa using hnot

theorem takes_oneOf {rs : List (Regex α)} : (oneOf rs).Takes s s' ↔ ∃ r ∈ rs, r.Takes s s' := by
  induction rs with
  | nil =>
    constructor
    · rintro ⟨c, t, -, hc, -⟩
      cases hc
    · rintro ⟨r, hr, -⟩
      cases hr
  | cons r rs ih =>
    cases rs with
    | nil =>
      rw [oneOf]
      simp
    | cons r' rs =>
      show r.Takes s s' ∨ (oneOf (r' :: rs)).Takes s s' ↔ _
      rw [ih]
      simp

end Forms

/-- With the `i` flag a literal takes what spells it in any case. -/
theorem takes_ignoreCase_literal {word b t : List ℕ} {caps : Captures ℕ}
    {s' : Cursor ℕ × Captures ℕ} : (units word).ignoreCase.Takes (⟨b, t⟩, caps) s' ↔
      ∃ u v, t = u ++ v ∧ List.Forall₂ (fun c d => c = d ∨ swapCase c = d) u word ∧
        s' = (⟨u.reverse ++ b, v⟩, caps) := by
  induction word generalizing b t with
  | nil =>
    constructor
    · rintro rfl
      exact ⟨[], t, rfl, .nil, rfl⟩
    · rintro ⟨u, v, rfl, hu, rfl⟩
      cases hu
      rfl
  | cons d word ih =>
    constructor
    · rintro ⟨_, ⟨c, rest, rfl, hc, rfl⟩, htakes⟩
      obtain ⟨u, v, rfl, hu, rfl⟩ := ih.mp htakes
      exact ⟨c :: u, v, rfl, .cons (by simpa using hc) hu, by simp⟩
    · rintro ⟨u, v, rfl, hu, rfl⟩
      cases hu with
      | @cons c _ u _ hc hu =>
        exact ⟨_, ⟨c, u ++ v, rfl, by simpa using hc, rfl⟩, ih.mpr ⟨u, v, rfl, hu, by simp⟩⟩

theorem ignoreCase_oneOf (rs : List (Regex ℕ)) : (oneOf rs).ignoreCase = oneOf
    (rs.map ignoreCase) := by
  induction rs with
  | nil => rfl
  | cons r rs ih =>
    cases rs with
    | nil => rfl
    | cons r' rs => exact congrArg _ ih

end Regex

end Ecma

import Newsdeck.Ecma.RegExp
import Mathlib.Logic.Relation

/-!
# Matches without a strategy

The matcher tries alternatives in an order.  `Takes` forgets the order: it says from which cursor to
which an expression can get at all, and what it captures on the way.

* `run_eq_some` — what the matcher answers is something the expression takes;
* `run_ne_none` — where the expression takes something the rest accepts, the matcher answers;
* `test_iff` — a text is accepted when the expression takes something from one of its cursors;
* `exec_spec` — what `exec` finds is taken from the leftmost cursor from which anything is;
* `takes_ignoreCase_units` — with the `i` flag a literal takes every spelling of itself.
-/

namespace Ecma

namespace Regex

variable {α : Type}

/-- From one cursor, with some groups captured, to another. -/
def Takes : Regex α → Cursor α × Captures α → Cursor α × Captures α → Prop
  | .empty, s, s' => s' = s
  | .cls p, s, s' => ∃ c t, s.1.after = c :: t ∧ p c = true ∧ s' = (⟨c :: s.1.before, t⟩, s.2)
  | .seq r r', s, s' => ∃ mid, r.Takes s mid ∧ r'.Takes mid s'
  | .alt r r', s, s' => r.Takes s s' ∨ r'.Takes s s'
  | .star _ r, s, s' =>
      Relation.ReflTransGen
        (fun s s' => r.Takes s s' ∧ s'.1.after.length < s.1.after.length) s s'
  | .group n r, s, s' => ∃ mid, r.Takes s mid ∧
      s' = (mid.1, (n, s.1.after.take (s.1.after.length - mid.1.after.length)) :: mid.2)
  | .bol, s, s' => s.1.before = [] ∧ s' = s
  | .eol, s, s' => s.1.after = [] ∧ s' = s
  | .boundary word, s, s' => atBoundary word s.1 = true ∧ s' = s
  | .notAhead r, s, s' => (¬∃ s'', r.Takes s s'') ∧ s' = s

/-! ### The matcher -/

theorem starLoop_eq_some {r : Regex α} {greedy : Bool} {k : Cont α} {x : Cursor α × Captures α}
    (hr : ∀ {k : Cont α} {pos caps x}, r.run k pos caps = some x →
      ∃ s', r.Takes (pos, caps) s' ∧ k s'.1 s'.2 = some x) (rounds : ℕ) :
    ∀ {pos caps}, starLoop greedy r.run k rounds pos caps = some x →
      ∃ s', (Regex.star greedy r).Takes (pos, caps) s' ∧ k s'.1 s'.2 = some x := by
  induction rounds with
  | zero =>
    intro pos caps h
    exact ⟨_, .refl, h⟩
  | succ rounds ih =>
    intro pos caps h
    have hagain : (r.run (fun pos' caps' =>
        if pos'.after.length < pos.after.length then starLoop greedy r.run k rounds pos' caps'
        else none) pos caps = some x) ∨ k pos caps = some x := by
      rw [starLoop] at h
      cases greedy with
      | true => exact (Option.or_eq_some_iff.mp h).imp_right And.right
      | false => exact (Option.or_eq_some_iff.mp h).symm.imp_left And.right
    rcases hagain with hrun | hstop
    · obtain ⟨mid, htakes, hmid⟩ := hr hrun
      split at hmid
      · rename_i hshort
        obtain ⟨s', hrest, hk⟩ := ih hmid
        exact ⟨s', .head ⟨htakes, hshort⟩ hrest, hk⟩
      · cases hmid
    · exact ⟨_, .refl, hstop⟩

theorem starLoop_ne_none {r : Regex α} {greedy : Bool} {k : Cont α}
    (hr : ∀ {k : Cont α} {s s'}, r.Takes s s' → k s'.1 s'.2 ≠ none → r.run k s.1 s.2 ≠ none)
    {s s' : Cursor α × Captures α} (h : (Regex.star greedy r).Takes s s') (hk : k s'.1 s'.2 ≠ none) :
    ∀ rounds, s.1.after.length ≤ rounds → starLoop greedy r.run k rounds s.1 s.2 ≠ none := by
  -- the last number of rounds is one more than the text is long
  have hstop : ∀ rounds, k s'.1 s'.2 ≠ none → starLoop greedy r.run k rounds s'.1 s'.2 ≠ none := by
    intro rounds hk
    cases rounds with
    | zero => exact hk
    | succ rounds =>
      rw [starLoop]
      cases greedy <;> simp [Option.or_eq_none_iff, hk]
  refine Relation.ReflTransGen.head_induction_on h (fun rounds _ => hstop rounds hk) ?_
  intro s mid hstep _ ih rounds hlength
  obtain ⟨htakes, hshort⟩ := hstep
  cases rounds with
  | zero => omega
  | succ rounds =>
    have hrun := hr htakes (k := fun pos' caps' =>
      if pos'.after.length < s.1.after.length then starLoop greedy r.run k rounds pos' caps'
      else none) (by rw [if_pos hshort]; exact ih rounds (by omega))
    rw [starLoop]
    cases greedy with
    | true => exact fun hnone => hrun (Option.or_eq_none_iff.mp hnone).1
    | false => exact fun hnone => hrun (Option.or_eq_none_iff.mp hnone).2

/-- Both directions at once: a negative lookahead turns one into the other. -/
theorem run_spec (r : Regex α) :
    (∀ {k : Cont α} {pos caps x}, r.run k pos caps = some x →
      ∃ s', r.Takes (pos, caps) s' ∧ k s'.1 s'.2 = some x) ∧
    ∀ {k : Cont α} {s s'}, r.Takes s s' → k s'.1 s'.2 ≠ none → r.run k s.1 s.2 ≠ none := by
  induction r with
  | empty =>
    refine ⟨fun h => ⟨_, rfl, h⟩, ?_⟩
    rintro k s _ rfl hk
    exact hk
  | cls p =>
    constructor
    · intro k pos caps x h
      obtain ⟨b, _ | ⟨c, t⟩⟩ := pos
      · cases h
      · rw [run_cls_cons] at h
        split at h
        · rename_i hc
          exact ⟨_, ⟨c, t, rfl, hc, rfl⟩, h⟩
        · cases h
    · rintro k ⟨⟨b, a⟩, caps⟩ _ ⟨c, t, ha, hc, rfl⟩ hk
      subst ha
      rw [run_cls_cons, if_pos hc]
      exact hk
  | seq r r' ih ih' =>
    constructor
    · intro k pos caps x h
      obtain ⟨mid, hr, hmid⟩ := ih.1 h
      obtain ⟨s', hr', hk⟩ := ih'.1 hmid
      exact ⟨s', ⟨mid, hr, hr'⟩, hk⟩
    · rintro k s s' ⟨mid, hr, hr'⟩ hk
      exact ih.2 hr (ih'.2 hr' hk)
  | alt r r' ih ih' =>
    constructor
    · intro k pos caps x h
      rcases Option.or_eq_some_iff.mp h with h | ⟨-, h⟩
      · exact (ih.1 h).imp fun s' hs' => ⟨.inl hs'.1, hs'.2⟩
      · exact (ih'.1 h).imp fun s' hs' => ⟨.inr hs'.1, hs'.2⟩
    · intro k s s' h hk hnone
      obtain ⟨hr, hr'⟩ := Option.or_eq_none_iff.mp hnone
      exact h.elim (fun h => ih.2 h hk hr) fun h => ih'.2 h hk hr'
  | star greedy r ih =>
    exact ⟨fun h => starLoop_eq_some ih.1 _ h, fun h hk => starLoop_ne_none ih.2 h hk _ le_rfl⟩
  | group n r ih =>
    constructor
    · intro k pos caps x h
      obtain ⟨s', hr, hk⟩ := ih.1 h
      exact ⟨_, ⟨s', hr, rfl⟩, hk⟩
    · rintro k s _ ⟨mid, hr, rfl⟩ hk
      exact ih.2 hr hk
  | bol =>
    constructor
    · intro k pos caps x h
      rw [run] at h
      split at h
      · rename_i hb
        exact ⟨_, ⟨hb, rfl⟩, h⟩
      · cases h
    · rintro k s _ ⟨hb, rfl⟩ hk
      rw [run, if_pos hb]
      exact hk
  | eol =>
    constructor
    · intro k pos caps x h
      rw [run] at h
      split at h
      · rename_i ha
        exact ⟨_, ⟨ha, rfl⟩, h⟩
      · cases h
    · rintro k s _ ⟨ha, rfl⟩ hk
      rw [run, if_pos ha]
      exact hk
  | boundary word =>
    constructor
    · intro k pos caps x h
      rw [run] at h
      split at h
      · rename_i hat
        exact ⟨_, ⟨hat, rfl⟩, h⟩
      · cases h
    · rintro k s _ ⟨hat, rfl⟩ hk
      rw [run, if_pos hat]
      exact hk
  | notAhead r ih =>
    constructor
    · intro k pos caps x h
      rw [run] at h
      split at h
      · cases h
      · rename_i hnone
        exact ⟨_, ⟨fun ⟨_, htakes⟩ => ih.2 htakes (Option.some_ne_none _) hnone, rfl⟩, h⟩
    · rintro k s _ ⟨hnot, rfl⟩ hk
      rw [run]
      split
      · rename_i _ hsome
        obtain ⟨s', htakes, -⟩ := ih.1 hsome
        exact absurd ⟨s', htakes⟩ hnot
      · exact hk

theorem run_eq_some {r : Regex α} {k : Cont α} {pos : Cursor α} {caps : Captures α}
    {x : Cursor α × Captures α} (h : r.run k pos caps = some x) :
    ∃ s', r.Takes (pos, caps) s' ∧ k s'.1 s'.2 = some x := r.run_spec.1 h

theorem run_ne_none {r : Regex α} {k : Cont α} {s s' : Cursor α × Captures α} (h : r.Takes s s')
    (hk : k s'.1 s'.2 ≠ none) : r.run k s.1 s.2 ≠ none := r.run_spec.2 h hk

/-! ### The search -/

theorem takes_of_run_done {r : Regex α} {pos : Cursor α} {x : Cursor α × Captures α}
    (h : r.run done pos [] = some x) : r.Takes (pos, []) x := by
  obtain ⟨s', htakes, hdone⟩ := run_eq_some h
  rwa [← Option.some.inj hdone]

theorem run_done_eq_none_iff {r : Regex α} {pos : Cursor α} :
    r.run done pos [] = none ↔ ∀ x, ¬r.Takes (pos, []) x := by
  constructor
  · intro h x htakes
    exact run_ne_none htakes (Option.some_ne_none _) h
  · intro h
    cases hrun : r.run done pos [] with
    | none => rfl
    | some x => exact absurd (takes_of_run_done hrun) (h x)

theorem search_spec {r : Regex α} {x : Cursor α × Captures α} (t : List α) :
    ∀ {b : List α}, r.search b t = some x → ∃ u v, t = u ++ v ∧
      r.run done ⟨u.reverse ++ b, v⟩ [] = some x ∧
      ∀ u' v', t = u' ++ v' → u'.length < u.length → ∀ y, ¬r.Takes (⟨u'.reverse ++ b, v'⟩, []) y := by
  induction t with
  | nil =>
    intro b h
    exact ⟨[], [], rfl, h, fun _ _ _ hlt => absurd hlt (Nat.not_lt_zero _)⟩
  | cons c t ih =>
    intro b h
    rw [search] at h
    rcases Option.or_eq_some_iff.mp h with hhere | ⟨hnone, hlater⟩
    · exact ⟨[], c :: t, rfl, hhere, fun _ _ _ hlt => absurd hlt (Nat.not_lt_zero _)⟩
    · obtain ⟨u, v, rfl, hrun, hfirst⟩ := ih hlater
      refine ⟨c :: u, v, rfl, by rwa [List.reverse_cons, List.append_assoc], ?_⟩
      intro u' v' hsplit hlt
      cases u' with
      | nil =>
        subst hsplit
        exact run_done_eq_none_iff.mp hnone
      | cons d u' =>
        obtain ⟨rfl, htail⟩ := List.cons.inj hsplit
        rw [List.reverse_cons, List.append_assoc]
        exact hfirst u' v' htail (Nat.lt_of_succ_lt_succ hlt)

/-- **What `exec` finds** is taken from the leftmost cursor from which the expression takes anything. -/
theorem exec_spec {r : Regex α} {t : List α} {x : Cursor α × Captures α} (h : r.exec t = some x) :
    ∃ u v, t = u ++ v ∧ r.run done ⟨u.reverse, v⟩ [] = some x ∧
      ∀ u' v', t = u' ++ v' → u'.length < u.length → ∀ y, ¬r.Takes (⟨u'.reverse, v'⟩, []) y := by
  obtain ⟨u, v, hsplit, hrun, hfirst⟩ := search_spec t h
  exact ⟨u, v, hsplit, by simpa using hrun, by simpa using hfirst⟩

theorem search_ne_none {r : Regex α} {v : List α} {x : Cursor α × Captures α} (u : List α) :
    ∀ {b : List α}, r.Takes (⟨u.reverse ++ b, v⟩, []) x → r.search b (u ++ v) ≠ none := by
  induction u with
  | nil =>
    intro b h hnone
    have hrun := run_ne_none (k := done) h (Option.some_ne_none _)
    cases v with
    | nil => exact hrun hnone
    | cons c v => exact hrun (Option.or_eq_none_iff.mp hnone).1
  | cons c u ih =>
    intro b h hnone
    rw [List.reverse_cons, List.append_assoc] at h
    exact ih h (Option.or_eq_none_iff.mp hnone).2

theorem exec_ne_none {r : Regex α} {u v : List α} {x : Cursor α × Captures α}
    (h : r.Takes (⟨u.reverse, v⟩, []) x) : r.exec (u ++ v) ≠ none :=
  search_ne_none u (by rwa [List.append_nil])

theorem test_iff {r : Regex α} {t : List α} :
    r.test t = true ↔ ∃ u v, t = u ++ v ∧ ∃ x, r.Takes (⟨u.reverse, v⟩, []) x := by
  rw [test, Option.isSome_iff_ne_none]
  constructor
  · intro h
    obtain ⟨x, hx⟩ := Option.ne_none_iff_exists'.mp h
    obtain ⟨u, v, hsplit, hrun, -⟩ := exec_spec hx
    exact ⟨u, v, hsplit, x, takes_of_run_done hrun⟩
  · rintro ⟨u, v, rfl, x, htakes⟩
    exact exec_ne_none htakes

theorem capture_of_exec {r : Regex α} {n : ℕ} {t : List α} {x : Cursor α × Captures α}
    (h : r.exec t = some x) : r.capture n t = x.2.lookup n := by
  rw [capture, h]
  rfl

/-- What a group captures, told from what every match has in it, when there is one candidate. -/
theorem capture_eq_some_iff {r : Regex α} {n : ℕ} {t : List α} {P : List α → Prop}
    (hsound : ∀ x, r.exec t = some x → ∃ w, x.2.lookup n = some w ∧ P w)
    (hunique : ∀ w w', P w → P w' → w = w') (hexec : ∀ w, P w → r.exec t ≠ none) (w : List α) :
    r.capture n t = some w ↔ P w := by
  cases hx : r.exec t with
  | none => exact ⟨fun h => by simp [capture, hx] at h, fun h => absurd hx (hexec w h)⟩
  | some x =>
    obtain ⟨w', hw', hP⟩ := hsound x hx
    rw [capture_of_exec hx, hw', Option.some.injEq]
    exact ⟨fun heq => heq ▸ hP, fun h => hunique _ _ hP h⟩

/-! ### What each form takes -/

section Forms

variable {b t : List α} {caps : Captures α} {s s' : Cursor α × Captures α}

theorem takes_cat_cons {r r' : Regex α} {rs : List (Regex α)} :
    (cat (r :: r' :: rs)).Takes s s' ↔ ∃ mid, r.Takes s mid ∧ (cat (r' :: rs)).Takes mid s' := Iff.rfl

theorem takes_cat_append (rs rs' : List (Regex α)) :
    (cat (rs ++ rs')).Takes s s' ↔ ∃ mid, (cat rs).Takes s mid ∧ (cat rs').Takes mid s' := by
  induction rs generalizing s with
  | nil => exact ⟨fun h => ⟨s, rfl, h⟩, fun ⟨_, hmid, h⟩ => hmid ▸ h⟩
  | cons r rs ih =>
    cases rs with
    | nil =>
      cases rs' with
      | nil => exact ⟨fun h => ⟨s', h, rfl⟩, fun ⟨_, h, hmid⟩ => hmid ▸ h⟩
      | cons r' rs' => exact Iff.rfl
    | cons r' rs =>
      rw [List.cons_append, List.cons_append, takes_cat_cons]
      constructor
      · rintro ⟨first, hfirst, hrest⟩
        obtain ⟨mid, hmid, hlast⟩ := ih.mp hrest
        exact ⟨mid, ⟨first, hfirst, hmid⟩, hlast⟩
      · rintro ⟨mid, ⟨first, hfirst, hmid⟩, hlast⟩
        exact ⟨first, hfirst, ih.mpr ⟨mid, hmid, hlast⟩⟩

theorem takes_opt {r : Regex α} : (opt r).Takes s s' ↔ r.Takes s s' ∨ s' = s := Iff.rfl

/-- A repetition of one class takes any run of it. -/
theorem takes_star_cls {greedy : Bool} {p : α → Bool} :
    (Regex.star greedy (.cls p)).Takes (⟨b, t⟩, caps) s' ↔
      ∃ u v, t = u ++ v ∧ (∀ c ∈ u, p c = true) ∧ s' = (⟨u.reverse ++ b, v⟩, caps) := by
  constructor
  · intro h
    have key : ∀ s : Cursor α × Captures α, (Regex.star greedy (.cls p)).Takes s s' →
        ∃ u v, s.1.after = u ++ v ∧ (∀ c ∈ u, p c = true) ∧ s' = (⟨u.reverse ++ s.1.before, v⟩, s.2) := by
      intro s h
      refine Relation.ReflTransGen.head_induction_on h ⟨[], _, rfl, by simp, rfl⟩ ?_
      rintro s mid ⟨⟨c, t, hafter, hc, rfl⟩, -⟩ - ⟨u, v, hrest, hu, rfl⟩
      refine ⟨c :: u, v, ?_, ?_, by simp⟩
      · rw [hafter, List.cons_append]
        exact congrArg _ hrest
      · exact fun d hd => (List.mem_cons.mp hd).elim (fun heq => heq ▸ hc) (hu d)
    exact key _ h
  · rintro ⟨u, v, rfl, hu, rfl⟩
    induction u generalizing b with
    | nil => exact .refl
    | cons c u ih =>
      rw [List.reverse_cons, List.append_assoc]
      exact .head ⟨⟨c, u ++ v, rfl, hu c (by simp), rfl⟩, by simp⟩
        (ih fun d hd => hu d (by simp [hd]))

theorem takes_many {p : α → Bool} : (many (.cls p)).Takes (⟨b, t⟩, caps) s' ↔
    ∃ u v, t = u ++ v ∧ (∀ c ∈ u, p c = true) ∧ s' = (⟨u.reverse ++ b, v⟩, caps) := takes_star_cls

theorem takes_lazy {p : α → Bool} : (lazy (.cls p)).Takes (⟨b, t⟩, caps) s' ↔
    ∃ u v, t = u ++ v ∧ (∀ c ∈ u, p c = true) ∧ s' = (⟨u.reverse ++ b, v⟩, caps) := takes_star_cls

theorem takes_many1 {p : α → Bool} : (many1 (.cls p)).Takes (⟨b, t⟩, caps) s' ↔
    ∃ u v, t = u ++ v ∧ u ≠ [] ∧ (∀ c ∈ u, p c = true) ∧ s' = (⟨u.reverse ++ b, v⟩, caps) := by
  constructor
  · rintro ⟨_, ⟨c, _, hafter, hc, rfl⟩, hrest⟩
    obtain ⟨u, v, rfl, hu, rfl⟩ := takes_star_cls.mp hrest
    exact ⟨c :: u, v, hafter, List.cons_ne_nil _ _, by simpa [hc] using hu, by simp⟩
  · rintro ⟨_ | ⟨c, u⟩, v, rfl, hne, hu, rfl⟩
    · exact absurd rfl hne
    · refine ⟨_, ⟨c, u ++ v, rfl, hu c (by simp), rfl⟩, takes_star_cls.mpr ⟨u, v, rfl, ?_, by simp⟩⟩
      exact fun d hd => hu d (by simp [hd])

theorem takes_units [DecidableEq α] {w : List α} : (units w).Takes (⟨b, t⟩, caps) s' ↔
    ∃ v, t = w ++ v ∧ s' = (⟨w.reverse ++ b, v⟩, caps) := by
  induction w generalizing b t with
  | nil => exact ⟨fun h => ⟨t, rfl, h⟩, fun ⟨_, ht, h⟩ => ht ▸ h⟩
  | cons c w ih =>
    constructor
    · rintro ⟨_, ⟨d, v, rfl, hd, rfl⟩, hrest⟩
      obtain ⟨v, rfl, rfl⟩ := ih.mp hrest
      obtain rfl : d = c := of_decide_eq_true hd
      exact ⟨v, rfl, by simp⟩
    · rintro ⟨v, rfl, rfl⟩
      exact ⟨_, ⟨c, w ++ v, rfl, decide_eq_true rfl, rfl⟩, ih.mpr ⟨v, rfl, by simp⟩⟩

theorem takes_opt_units [DecidableEq α] {w : List α} : (opt (units w)).Takes (⟨b, t⟩, caps) s' ↔
    ∃ u v, (u = [] ∨ u = w) ∧ t = u ++ v ∧ s' = (⟨u.reverse ++ b, v⟩, caps) := by
  rw [takes_opt, takes_units]
  constructor
  · rintro (⟨v, rfl, rfl⟩ | rfl)
    · exact ⟨w, v, .inr rfl, rfl, rfl⟩
    · exact ⟨[], t, .inl rfl, rfl, rfl⟩
  · rintro ⟨u, v, rfl | rfl, rfl, rfl⟩
    · exact .inr rfl
    · exact .inl ⟨v, rfl, rfl⟩

theorem takes_group {n : ℕ} {r : Regex α} : (Regex.group n r).Takes s s' ↔ ∃ mid, r.Takes s mid ∧
    s' = (mid.1, (n, s.1.after.take (s.1.after.length - mid.1.after.length)) :: mid.2) := Iff.rfl

/-- What a group holds that took `u` in front of `v`. -/
theorem take_consumed (u v : List α) : (u ++ v).take ((u ++ v).length - v.length) = u := by
  rw [List.length_append, Nat.add_sub_cancel, List.take_left]

end Forms

end Regex

/-! ### Letters in either case -/

/-- A letter in lower case. -/
def foldCase (c : ℕ) : ℕ := if isUpper c then c + 32 else c

theorem foldCase_eq_iff {c d : ℕ} (hd : isLower d = true) :
    foldCase c = d ↔ c = d ∨ swapCase c = d := by
  simp only [foldCase, swapCase, isUpper, isLower, Bool.and_eq_true, decide_eq_true_eq] at hd ⊢
  split <;> try split
  all_goals omega

theorem isSpace_swapCase (c : ℕ) : isSpace (swapCase c) = isSpace c := by
  have hletter : ∀ d : ℕ, 65 ≤ d → d ≤ 122 → isSpace d = false := by
    intro d hlow hhigh
    simp only [isSpace, Bool.or_eq_false_iff, Bool.and_eq_false_iff, decide_eq_false_iff_not]
    omega
  simp only [swapCase, isUpper, isLower, Bool.and_eq_true, decide_eq_true_eq]
  split
  · rw [hletter _ (by omega) (by omega), hletter c (by omega) (by omega)]
  · split
    · rw [hletter _ (by omega) (by omega), hletter c (by omega) (by omega)]
    · rfl

theorem isSpace_of_foldCase_isLower {c : ℕ} (h : isLower (foldCase c) = true) :
    isSpace c = false := by
  simp only [foldCase, isUpper, isLower, Bool.and_eq_true, decide_eq_true_eq] at h
  simp only [isSpace, Bool.or_eq_false_iff, Bool.and_eq_false_iff, decide_eq_false_iff_not]
  split at h <;> omega

theorem isWord_of_foldCase_isLower {c : ℕ} (h : isLower (foldCase c) = true) :
    isWord c = true := by
  simp only [foldCase, isUpper, isLower, Bool.and_eq_true, decide_eq_true_eq] at h
  simp only [isWord, isLetter, isUpper, isLower, Bool.or_eq_true, Bool.and_eq_true,
    decide_eq_true_eq]
  split at h <;> omega

theorem isWord_of_isSpace {c : ℕ} (h : isSpace c = true) : isWord c = false := by
  simp only [isSpace, Bool.or_eq_true, Bool.and_eq_true, decide_eq_true_eq] at h
  simp only [isWord, isLetter, isUpper, isLower, isDigit, Bool.or_eq_false_iff,
    Bool.and_eq_false_iff, decide_eq_false_iff_not]
  omega

namespace Regex

variable {b t : List ℕ} {caps : Captures ℕ} {s s' : Cursor ℕ × Captures ℕ}

theorem ignoreCase_cat (rs : List (Regex ℕ)) : (cat rs).ignoreCase = cat (rs.map ignoreCase) := by
  induction rs with
  | nil => rfl
  | cons r rs ih =>
    cases rs with
    | nil => rfl
    | cons r' rs => exact congrArg _ ih

theorem takes_ignoreCase_units {w : List ℕ} (hw : ∀ c ∈ w, isLower c = true) :
    (units w).ignoreCase.Takes (⟨b, t⟩, caps) s' ↔
      ∃ u v, t = u ++ v ∧ u.map foldCase = w ∧ s' = (⟨u.reverse ++ b, v⟩, caps) := by
  induction w generalizing b t with
  | nil =>
    constructor
    · rintro rfl
      exact ⟨[], t, rfl, rfl, rfl⟩
    · rintro ⟨u, v, rfl, hu, rfl⟩
      obtain rfl := List.map_eq_nil_iff.mp hu
      rfl
  | cons c w ih =>
    have hc : isLower c = true := hw c List.mem_cons_self
    have hrest : ∀ d ∈ w, isLower d = true := fun d hd => hw d (List.mem_cons_of_mem _ hd)
    constructor
    · rintro ⟨_, ⟨d, rest, rfl, hd, rfl⟩, htakes⟩
      obtain ⟨u, v, rfl, hu, rfl⟩ := (ih hrest).mp htakes
      have hd : d = c ∨ swapCase d = c := by simpa using hd
      refine ⟨d :: u, v, rfl, ?_, by simp⟩
      rw [List.map_cons, (foldCase_eq_iff hc).mpr hd, hu]
    · rintro ⟨u, v, rfl, hu, rfl⟩
      obtain ⟨d, u, rfl, hd, rfl⟩ := List.map_eq_cons_iff.mp hu
      have hd : d = c ∨ swapCase d = c := (foldCase_eq_iff hc).mp hd
      refine ⟨_, ⟨d, u ++ v, rfl, by simpa using hd, rfl⟩, ?_⟩
      exact (ih hrest).mpr ⟨u, v, rfl, rfl, by simp⟩

end Regex

end Ecma
